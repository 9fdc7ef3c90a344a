import DawnC.Proofs.Program.Scope

set_option autoImplicit false

namespace DawnC

variable {file : String} {line stmt : Int}

theorem pieceAtoms_run {text : String} (word : Scanner.kindOf text.toList = .word)
    (rest : List Piece) :
    pieceAtoms file line stmt (.run text :: rest) =
      wordAtom file line stmt text :: pieceAtoms file line stmt rest := by
  rw [pieceAtoms, word, wordAtom]

theorem pieceAtoms_blank (rest : List Piece) :
    pieceAtoms file line stmt (.mark ' ' :: rest) = pieceAtoms file line stmt rest := rfl

theorem pieceAtoms_paren (rest : List Piece) :
    pieceAtoms file line stmt (.mark '(' :: rest) = pieceAtoms file line stmt rest := rfl

def markAtom (file : String) (line stmt : Int) (c : Char) : Atom :=
  tokenAtom file line stmt (.mark c)

theorem pieceAtoms_comma (rest : List Piece) :
    pieceAtoms file line stmt (.mark ',' :: rest) =
      markAtom file line stmt ',' :: pieceAtoms file line stmt rest := rfl

theorem pieceAtoms_bracket (rest : List Piece) :
    pieceAtoms file line stmt (.mark '[' :: rest) =
      markAtom file line stmt '[' :: pieceAtoms file line stmt rest := rfl

theorem Name.kindOf (name : Name) : Scanner.kindOf name.text.toList = .word :=
  kindOf_of_isWordText name.isWordText

theorem Bound.kindOf (bound : Bound) : Scanner.kindOf bound.text.toList = .word :=
  kindOf_of_isWordText bound.isWordText

theorem Scalar.cls_mem (type : Scalar) : type.cls ∈ [SymbolClass.int, .bool, .string] := by
  cases type <;> decide

/-- No atom of an argument ends it. -/
theorem Argument.free (argument : Argument) :
    ∀ a ∈ argument.atoms file line stmt,
      a.is ")" = false ∧ a.is "," = false ∧ a.is "\x7d" = false := by
  intro a member
  exact ⟨argument.is_of_mem_atoms member (by decide) (by decide : isPunctuation ')' = true),
    argument.is_of_mem_atoms member (by decide) (by decide : isPunctuation ',' = true),
    argument.is_of_mem_atoms member (by decide) (by decide : isPunctuation '\x7d' = true)⟩

theorem Argument.read (file : String) (line stmt : Int) (arguments : List Argument) (index : Nat)
    (later : List Atom) :
    DawnC.arguments index
        ([markAtom file line stmt ','].intercalate
            (arguments.map fun a => a.atoms file line stmt) ++
          markAtom file line stmt ')' :: later) =
      .ok (arguments.map Phrase.text,
        ([markAtom file line stmt ','].intercalate
          (arguments.map fun a => a.atoms file line stmt)).length + 1) := by
  rw [arguments_intercalate rfl rfl, List.map_map]
  · simp only [Function.comp_def, Phrase.spaced_atoms]
  · intro part member
    obtain ⟨argument, -, rfl⟩ := List.mem_map.mp member
    exact argument.atoms_ne_nil
  · intro part member
    obtain ⟨argument, -, rfl⟩ := List.mem_map.mp member
    exact argument.free

theorem Element.read (file : String) (line stmt : Int) (elements : List Element) (index : Nat)
    (later : List Atom) :
    elementsFrom [] 0 index
        ([markAtom file line stmt ','].intercalate
            (elements.map fun e => e.atoms file line stmt) ++
          markAtom file line stmt ']' :: later) =
      .ok (",".intercalate (elements.map fun e => String.join e.texts),
        ([markAtom file line stmt ','].intercalate
          (elements.map fun e => e.atoms file line stmt)).length + 1) := by
  rw [elementsFrom_append _ rfl]
  · rw [List.reverse_nil, List.nil_append, join_intercalate rfl, List.map_map, Nat.zero_add]
    simp only [Function.comp_def, Phrase.map_text_atoms]
  · intro a member
    rcases mem_intercalate member with comma | ⟨part, inside, found⟩
    · cases List.mem_singleton.mp comma
      exact ⟨rfl, rfl⟩
    · obtain ⟨element, -, rfl⟩ := List.mem_map.mp inside
      exact ⟨element.is_of_mem_atoms found (by decide) (by decide : isPunctuation ']' = true),
        element.is_of_mem_atoms found (by decide) (by decide : isPunctuation '\x7d' = true)⟩

/-- A statement of words and a phrase reaches up to where the next statement begins. -/
theorem statement_words (file : String) (line : Int) {words : List String} (first : String)
    (value : Expression) {later : List Atom} (noBrace : ∀ word ∈ first :: words, word ≠ "\x7d")
    (apart : ∀ b ∈ later, stmt < b.stmt) :
    statement (wordAtom file line stmt first ::
        (words.map (wordAtom file line stmt) ++ value.atoms file line stmt ++ later)) =
      wordAtom file line stmt first ::
        (words.map (wordAtom file line stmt) ++ value.atoms file line stmt) := by
  refine statement_append ?_ ?_ apart
  · intro b member
    rcases List.mem_append.mp member with word | token
    · obtain ⟨text, -, rfl⟩ := List.mem_map.mp word
      rfl
    · exact value.stmt_of_mem_atoms token
  · intro b member
    rw [← List.cons_append, ← List.map_cons, List.mem_append] at member
    rcases member with word | token
    · obtain ⟨text, inside, rfl⟩ := List.mem_map.mp word
      exact Atom.is_eq_false (noBrace text inside)
    · exact value.is_of_mem_atoms token (by decide) (by decide : isPunctuation '\x7d' = true)

def Name.phrase (name : Name) {stops : List Char} : Phrase stops where
  tokens := [.run name.text]
  nonempty := List.cons_ne_nil _ _
  valid := by
    have other : name.text ≠ "function" := fun same => name.free (same ▸ by decide)
    simp [isToken, isRun_of_isWordText name.isWordText, other]

theorem Name.atoms_phrase (name : Name) {stops : List Char} :
    (name.phrase : Phrase stops).atoms file line stmt = [wordAtom file line stmt name.text] :=
  congrArg (fun a => [a]) (tokenAtom_word name.isWordText)

theorem Name.text_phrase (name : Name) {stops : List Char} :
    (name.phrase : Phrase stops).text = name.text := by
  simp [Phrase.text, Phrase.texts, Name.phrase, Piece.chars]

theorem Name.ne_brace (name : Name) : name.text ≠ "\x7d" := by
  intro same
  have word := name.isWordText
  rw [same] at word
  exact absurd word (by decide)

namespace Simple

def first : Simple → String
  | print printer _ => printer.keyword
  | printElement _ _ => "print_list_element"
  | declare type _ _ => type.cls.name
  | declareList _ _ => "List<int>"
  | assign name _ => name.text
  | call function _ => function.text

def front (file : String) (line stmt : Int) : Simple → List Atom
  | print _ argument => argument.atoms file line stmt ++ [markAtom file line stmt ')']
  | printElement list position =>
    wordAtom file line stmt list.text :: markAtom file line stmt ',' ::
      (position.atoms file line stmt ++ [markAtom file line stmt ')'])
  | declare _ name value =>
    wordAtom file line stmt name.text :: wordAtom file line stmt "=" :: value.atoms file line stmt
  | declareList name elements =>
    wordAtom file line stmt name.text :: wordAtom file line stmt "=" :: markAtom file line stmt '[' ::
      ([markAtom file line stmt ','].intercalate (elements.map fun e => e.atoms file line stmt) ++
        [markAtom file line stmt ']'])
  | assign _ value => wordAtom file line stmt "=" :: value.atoms file line stmt
  | call _ arguments =>
    [markAtom file line stmt ','].intercalate (arguments.map fun a => a.atoms file line stmt) ++
      [markAtom file line stmt ')']

theorem kindOf_equals : Scanner.kindOf "=".toList = .word := by decide

theorem commaSeparated_phrases (file : String) (line stmt : Int) {stops : List Char}
    (phrases : List (Phrase stops)) :
    pieceAtoms file line stmt (commaSeparated (phrases.map Phrase.pieces)) =
        [markAtom file line stmt ','].intercalate (phrases.map fun p => p.atoms file line stmt) ∧
      stmtAfter stmt (commaSeparated (phrases.map Phrase.pieces)) = stmt :=
  commaSeparated_atoms phrases (fun p => p.pieceAtoms_pieces) (fun p => p.stmtAfter_pieces)

theorem pieceAtoms_source (statement : Simple) :
    pieceAtoms file line stmt statement.source =
      wordAtom file line stmt statement.first :: statement.front file line stmt := by
  cases statement with
  | print printer argument =>
      have keyword : Scanner.kindOf printer.keyword.toList = .word := by cases printer <;> decide
      simp only [source, pieceAtoms_run keyword, pieceAtoms_paren, pieceAtoms_append,
        Phrase.pieceAtoms_pieces, Phrase.stmtAfter_pieces]
      rfl
  | printElement list position =>
      have keyword : Scanner.kindOf "print_list_element".toList = .word := by decide
      simp only [source, pieceAtoms_run keyword, pieceAtoms_paren, pieceAtoms_run list.kindOf,
        pieceAtoms_comma, pieceAtoms_blank, pieceAtoms_append, Phrase.pieceAtoms_pieces,
        Phrase.stmtAfter_pieces]
      rfl
  | declare type name value =>
      have keyword : Scanner.kindOf type.cls.name.toList = .word := by cases type <;> decide
      simp only [source, pieceAtoms_run keyword, pieceAtoms_blank, pieceAtoms_run name.kindOf,
        pieceAtoms_run kindOf_equals, Phrase.pieceAtoms_pieces]
      rfl
  | declareList name elements =>
      have keyword : Scanner.kindOf "List<int>".toList = .word := by decide
      obtain ⟨read, stays⟩ := commaSeparated_phrases file line stmt elements
      simp only [source, pieceAtoms_run keyword, pieceAtoms_blank, pieceAtoms_run name.kindOf,
        pieceAtoms_run kindOf_equals, pieceAtoms_bracket, pieceAtoms_append, read, stays]
      rfl
  | assign name value =>
      simp only [source, pieceAtoms_blank, pieceAtoms_run name.kindOf,
        pieceAtoms_run kindOf_equals, Phrase.pieceAtoms_pieces]
      rfl
  | call function arguments =>
      obtain ⟨read, stays⟩ := commaSeparated_phrases file line stmt arguments
      simp only [source, pieceAtoms_run function.kindOf, pieceAtoms_paren, pieceAtoms_append, read,
        stays]
      rfl

variable {classes : String → SymbolClass} {known : Declarations} {t : Translator}
  {previous : Option Atom} {i : Nat} {later : List Atom}

theorem print_effect (printer : Printer) (argument : Argument) :
    Translator.Effect t previous i (wordAtom file line stmt printer.keyword)
      (argument.atoms file line stmt ++ markAtom file line stmt ')' :: later)
      (1 + ((argument.atoms file line stmt).length + 1))
      (t.emit (print printer argument).emitted) := by
  have read := Argument.read file line stmt [argument] (i + 1) later
  rw [List.map_singleton, List.map_singleton, List.intercalate_singleton] at read
  cases printer with
  | print =>
      have effect : Translator.Effect t previous i (wordAtom file line stmt "print") _ _ _ :=
        .print (wordAtom_isWord "print") read
      exact effect
  | printStr =>
      have line : (print .printStr argument).emitted =
          "printf(\"" ++ "%s" ++ "\\n\", " ++ argument.text ++ ");" := rfl
      rw [line]
      exact .printFormatted (wordAtom_isWord "print_str") List.mem_cons_self read
  | printInt =>
      have line : (print .printInt argument).emitted =
          "printf(\"" ++ "%d" ++ "\\n\", " ++ argument.text ++ ");" := rfl
      rw [line]
      exact .printFormatted (wordAtom_isWord "print_int")
        (List.mem_cons_of_mem _ List.mem_cons_self) read

theorem printElement_effect (list : Name) (position : Argument)
    (isList : t.symbols.classOf list.text = .intList) :
    Translator.Effect t previous i (wordAtom file line stmt "print_list_element")
      (wordAtom file line stmt list.text :: markAtom file line stmt ',' ::
        (position.atoms file line stmt ++ markAtom file line stmt ')' :: later))
      (1 + ((position.atoms file line stmt).length + 1 + 1 + 1))
      (t.emit (printElement list position).emitted) := by
  have read := Argument.read file line stmt [list.phrase, position] (i + 1) later
  simp only [List.map_cons, List.map_nil, List.intercalate_cons_cons, List.intercalate_singleton,
    Name.atoms_phrase, Name.text_phrase, List.cons_append, List.nil_append, List.length_cons] at read
  exact .printListElement (wordAtom_isWord "print_list_element") read isList

theorem declare_effect (type : Scalar) (name : Name) (value : Expression) {symbols : SymbolTable}
    (declared : t.symbols.declare name.text type.cls = .ok symbols)
    (apart : ∀ b ∈ later, stmt < b.stmt) :
    Translator.Effect t previous i (wordAtom file line stmt type.cls.name)
      (wordAtom file line stmt name.text :: wordAtom file line stmt "=" ::
        (value.atoms file line stmt ++ later))
      ((value.atoms file line stmt).length + 3)
      ({ t with symbols }.emit (declare type name value).emitted) := by
  have noBrace : ∀ word ∈ [type.cls.name, name.text, "="], word ≠ "\x7d" := by
    have keyword : type.cls.name ≠ "\x7d" := by cases type <;> decide
    simp [keyword, name.ne_brace]
  have whole : statement (wordAtom file line stmt type.cls.name ::
      wordAtom file line stmt name.text :: wordAtom file line stmt "=" ::
        (value.atoms file line stmt ++ later)) = _ :=
    statement_words file line type.cls.name value noBrace apart
  have effect : Translator.Effect t previous i (wordAtom file line stmt type.cls.name)
      (wordAtom file line stmt name.text :: wordAtom file line stmt "=" ::
        (value.atoms file line stmt ++ later)) _ _ :=
    .declaration (wordAtom_isWord type.cls.name) type.cls_mem rfl name.isName (wordAtom_is "=")
      (by rw [whole]; exact value.atoms_ne_nil) declared
  rw [whole, declarator_eq type.cls_mem] at effect
  simp only [List.map_cons, List.map_nil, List.cons_append, List.nil_append,
    List.drop_succ_cons, List.drop_zero, Phrase.spaced_atoms, List.length_cons] at effect
  exact effect

theorem declareList_effect (name : Name) (elements : List Element) {symbols : SymbolTable}
    (declared : t.symbols.declare name.text .intList = .ok symbols) :
    Translator.Effect t previous i (wordAtom file line stmt "List<int>")
      (wordAtom file line stmt name.text :: wordAtom file line stmt "=" ::
        markAtom file line stmt '[' ::
          ([markAtom file line stmt ','].intercalate
              (elements.map fun e => e.atoms file line stmt) ++
            markAtom file line stmt ']' :: later))
      (4 + (([markAtom file line stmt ','].intercalate
        (elements.map fun e => e.atoms file line stmt)).length + 1))
      ({ t with symbols }.emit (declareList name elements).emitted) := by
  have isBracket : (markAtom file line stmt '[').is "[" = true := rfl
  have read := Element.read file line stmt elements (i + 4) later
  have effect : Translator.Effect t previous i (wordAtom file line stmt "List<int>")
      (wordAtom file line stmt name.text :: wordAtom file line stmt "=" ::
        markAtom file line stmt '[' :: _) _ _ :=
    .intList (wordAtom_isWord "List<int>") rfl name.isName (wordAtom_is "=") isBracket read declared
  exact effect

theorem assign_effect (name : Name) (value : Expression)
    (assignable : t.symbols.classOf name.text = .int ∨ t.symbols.classOf name.text = .bool)
    (apart : ∀ b ∈ later, stmt < b.stmt) :
    Translator.Effect t previous i (wordAtom file line stmt name.text)
      (wordAtom file line stmt "=" :: (value.atoms file line stmt ++ later))
      ((value.atoms file line stmt).length + 2) (t.emit (assign name value).emitted) := by
  have noBrace : ∀ word ∈ [name.text, "="], word ≠ "\x7d" := by simp [name.ne_brace]
  have whole : statement (wordAtom file line stmt name.text :: wordAtom file line stmt "=" ::
      (value.atoms file line stmt ++ later)) = _ :=
    statement_words file line name.text value noBrace apart
  have effect : Translator.Effect t previous i (wordAtom file line stmt name.text)
      (wordAtom file line stmt "=" :: (value.atoms file line stmt ++ later)) _ _ :=
    .assignment rfl name.free assignable rfl (wordAtom_is "=") rfl
      (by rw [whole]; exact value.atoms_ne_nil)
  rw [whole] at effect
  simp only [List.map_cons, List.map_nil, List.cons_append, List.nil_append,
    List.drop_succ_cons, List.drop_zero, Phrase.spaced_atoms, List.length_cons] at effect
  exact effect

theorem call_effect (function : Name) (arguments : List Argument) (knows : t.symbols.Knows known)
    (isFunction : t.symbols.classOf function.text = .function)
    (areKnown : ∀ argument ∈ arguments, argument.isKnown known = true) :
    Translator.Effect t previous i (wordAtom file line stmt function.text)
      ([markAtom file line stmt ','].intercalate (arguments.map fun a => a.atoms file line stmt) ++
        markAtom file line stmt ')' :: later)
      (1 + (([markAtom file line stmt ','].intercalate
        (arguments.map fun a => a.atoms file line stmt)).length + 1))
      (t.emit (call function arguments).emitted) := by
  have read := Argument.read file line stmt arguments (i + 1) later
  have resolved : Translator.unresolvedArgument? t.symbols 1 (arguments.map Phrase.text) = none := by
    refine unresolvedArgument?_eq_none ?_ 1
    intro text member identifier
    obtain ⟨argument, inside, rfl⟩ := List.mem_map.mp member
    exact Phrase.resolved knows (areKnown argument inside) identifier
  exact Translator.Effect.call rfl function.free isFunction read resolved

/-- The atoms of the line make the construct that emits what the statement stands for, and declares
what the statement declares. -/
theorem effect (statement : Simple) (knows : t.symbols.Knows known)
    (agrees : Agrees classes (known ++ statement.declared))
    (isScoped : statement.isScoped known = true) (apart : ∀ b ∈ later, stmt < b.stmt) :
    ∃ symbols, symbols.Knows (known ++ statement.declared) ∧
      Translator.Effect t previous i (wordAtom file line stmt statement.first)
        (statement.front file line stmt ++ later) ((statement.front file line stmt).length + 1)
        ({ t with symbols }.emit statement.emitted) := by
  have unchanged : t.symbols.Knows (known ++ []) := by rwa [List.append_nil]
  cases statement with
  | print printer argument =>
      refine ⟨t.symbols, unchanged, ?_⟩
      simp only [front, List.append_assoc, List.singleton_append, List.length_append,
        List.length_singleton]
      rw [Nat.add_comm _ 1]
      exact print_effect printer argument
  | printElement list position =>
      simp only [Simple.isScoped, decide_eq_true_eq] at isScoped
      refine ⟨t.symbols, unchanged, ?_⟩
      simp only [front, List.cons_append, List.append_assoc, List.nil_append,
        List.length_cons, List.length_append, List.length_nil]
      rw [Nat.add_comm _ 1]
      exact printElement_effect list position (knows.classOf isScoped)
  | declare type name value =>
      obtain ⟨symbols, declared, knows'⟩ := knows.declare agrees
      exact ⟨symbols, knows', declare_effect type name value declared apart⟩
  | declareList name elements =>
      obtain ⟨symbols, declared, knows'⟩ := knows.declare agrees
      refine ⟨symbols, knows', ?_⟩
      simp only [front, List.cons_append, List.append_assoc, List.nil_append,
        List.length_cons, List.length_append, List.length_nil]
      rw [Nat.add_comm _ 4]
      exact declareList_effect name elements declared
  | assign name value =>
      simp only [Simple.isScoped, Bool.or_eq_true, decide_eq_true_eq] at isScoped
      have assignable : t.symbols.classOf name.text = .int ∨ t.symbols.classOf name.text = .bool :=
        isScoped.imp knows.classOf knows.classOf
      exact ⟨t.symbols, unchanged, assign_effect name value assignable apart⟩
  | call function arguments =>
      simp only [Simple.isScoped, Bool.and_eq_true, decide_eq_true_eq, List.all_eq_true] at isScoped
      refine ⟨t.symbols, unchanged, ?_⟩
      simp only [front, List.append_assoc, List.singleton_append, List.length_append,
        List.length_singleton]
      rw [Nat.add_comm _ 1]
      exact call_effect function arguments knows (knows.classOf isScoped.1) isScoped.2

end Simple

end DawnC
