import DawnC.Proofs.Declaration
import DawnC.Proofs.LoopExtent

set_option autoImplicit false

namespace DawnC

/-- The identifiers that a line declares are the entries. -/
def LineDeclares (line : String) (entries : List (String × SymbolClass)) : Prop :=
  ∀ name cls, isIdentifier name = true → (Declares name cls line ↔ (name, cls) ∈ entries)

theorem LineDeclares.single {line name : String} {cls : SymbolClass}
    (declares : Declares name cls line) (found : declaredIn line = [(name, cls)]) :
    LineDeclares line [(name, cls)] := by
  intro other cls' isName
  constructor
  · intro declares'
    exact found ▸ declares'.mem_declaredIn isName
  · intro member
    cases List.mem_singleton.mp member
    exact declares

/-- A line that shows no name declares none. -/
theorem LineDeclares.none {line : String}
    (nameless : ∀ entry ∈ declaredIn line, isIdentifier entry.1 = false) : LineDeclares line [] := by
  intro name cls isName
  constructor
  · intro declares
    have unnamed : isIdentifier name = false := nameless _ (declares.mem_declaredIn isName)
    rw [isName] at unnamed
    cases unnamed
  · intro member
    cases member

theorem LineDeclares.of_word {line : String} (word : String) (stop : Char) (rest : List Char)
    (shape : line.toList = word.toList ++ stop :: rest) (plain : word.toList.all isPlainChar = true)
    (stops : isPlainChar stop = false)
    (nameless : ∀ entry ∈ declaredAfter word stop rest, isIdentifier entry.1 = false) :
    LineDeclares line [] := by
  apply LineDeclares.none
  rw [declaredIn_append word stop rest shape plain stops]
  exact nameless

theorem lineDeclares_scalar {name : String} {cls : SymbolClass} (isName : isIdentifier name = true)
    (scalar : cls ∈ [SymbolClass.int, .bool, .string]) (value : String) :
    LineDeclares (declarator cls name ++ " = " ++ value ++ ";") [(name, cls)] := by
  simp only [List.mem_cons, List.not_mem_nil, or_false] at scalar
  rcases scalar with rfl | rfl | rfl
  · exact .single (.int value rfl) (declaredIn_int isName value)
  · exact .single (.bool value rfl) (declaredIn_bool isName value)
  · refine .single (.string value (by simp [declarator, String.append_assoc])) ?_
    have shape : declarator .string name ++ " = " ++ value ++ ";" =
        "char " ++ name ++ "[] = " ++ value ++ ";" := by
      simp [declarator, String.append_assoc]
    rw [shape]
    exact declaredIn_string isName value

theorem lineDeclares_loop {name : String} (isName : isIdentifier name = true) (low high : String) :
    LineDeclares (Translator.loopLine name low high) [(name, .int)] := by
  obtain ⟨rest, shape⟩ : ∃ rest, Translator.loopLine name low high =
      "for(int " ++ name ++ " = " ++ rest := by
    unfold Translator.loopLine
    simp only [String.append_assoc]
    exact ⟨_, rfl⟩
  rw [shape]
  exact .single (.loop rest rfl) (declaredIn_loop isName rest)

theorem lineDeclares_header {function : String} (isName : isIdentifier function = true)
    {entries : List (String × SymbolClass)} (valid : ∀ entry ∈ entries, IsParameter entry) :
    LineDeclares (headerLine function (entries.map parameterText)) entries := by
  intro name cls named
  constructor
  · intro declares
    have found := declares.mem_declaredIn named
    rw [declaredIn_headerLine isName, parametersIn_eq valid] at found
    exact found
  · intro member
    obtain ⟨before, after, rfl⟩ := List.append_of_mem member
    rcases (valid _ member).2 with isInt | isString
    · have isInt : cls = .int := isInt
      subst isInt
      have shape : headerLine function ((before ++ (name, .int) :: after).map parameterText) =
          headerLine function
            (before.map parameterText ++ ("int " ++ name) :: after.map parameterText) := by
        simp [parameterText, declarator]
      exact .intParameter isName shape
    · have isString : cls = .string := isString
      subst isString
      have shape : headerLine function ((before ++ (name, .string) :: after).map parameterText) =
          headerLine function
            (before.map parameterText ++ ("char " ++ name ++ "[]") :: after.map parameterText) := by
        simp [parameterText, declarator]
      exact .stringParameter isName shape

theorem lineDeclares_printf (rest : String) : LineDeclares ("printf(" ++ rest) [] :=
  .of_word "printf" '(' rest.toList (by simp) (by decide) (by decide) (by simp [declaredAfter])

theorem lineDeclares_conditional (rest : String) : LineDeclares ("if(" ++ rest) [] :=
  .of_word "if" '(' rest.toList (by simp) (by decide) (by decide) (by simp [declaredAfter])

/-- An assignment declares nothing, though its target may be a type of C. -/
theorem lineDeclares_assignment {name : String} (isName : isIdentifier name = true)
    (free : name ∉ leadingWords) (value : String) :
    LineDeclares (name ++ " = " ++ value ++ ";") [] := by
  refine .of_word name ' ' ("= " ++ value ++ ";").toList (by simp) (all_isPlainChar isName)
    (by decide) ?_
  have first : firstWord ("= " ++ value ++ ";").toList = ("=", ' ' :: (value ++ ";").toList) := by
    have shape : ("= " ++ value ++ ";").toList = "=".toList ++ ' ' :: (value ++ ";").toList := by simp
    rw [shape, firstWord_append (by decide) (by decide)]
  have notInt : name ≠ "int" := fun same => free (by rw [same]; decide)
  have notBool : name ≠ "bool" := fun same => free (by rw [same]; decide)
  intro entry member
  simp only [declaredAfter] at member
  split at member
  · exact absurd rfl notInt
  · exact absurd rfl notBool
  · rw [first, List.mem_singleton] at member
    rw [member]
    exact (by decide : isIdentifier "=" = false)
  · rename_i isParenthesis
    exact absurd isParenthesis (by decide)
  · rw [first] at member
    simp at member
  · cases member

/-- A call declares nothing: a function can be named by any word of the lexer. -/
theorem lineDeclares_call {name : String} (word : Scanner.IsAtomText name.toList)
    (free : name ∉ leadingWords) (rest : String) : LineDeclares (name ++ "(" ++ rest) [] := by
  obtain ⟨first, tail, split, plain, rfl | ⟨quoted, rfl⟩⟩ := word.split
  · rw [List.append_nil] at split
    refine .of_word name '(' rest.toList (by simp) (split ▸ plain) (by decide) ?_
    have notFor : name ≠ "for" := fun same => free (by rw [same]; decide)
    intro entry member
    simp only [declaredAfter] at member
    split at member <;> simp_all
  · refine .of_word (String.ofList first) '"' (quoted ++ '(' :: rest.toList) (by simp [split])
      (by simpa using plain) (by decide) ?_
    intro entry member
    simp only [declaredAfter] at member
    split at member <;> simp_all

theorem get?_declare_iff {table table' : SymbolTable} {name : String} {cls : SymbolClass}
    (declared : table.declare name cls = .ok table') (other : String) (cls' : SymbolClass) :
    table'.get? other = some cls' ↔
      table.get? other = some cls' ∨ (other, cls') ∈ [(name, cls)] := by
  have grows := SymbolTable.Grows.of_declare (P := fun n c => (n, c) ∈ [(name, cls)]) declared
    (List.mem_singleton_self _)
  constructor
  · exact grows.adds other cls'
  · rintro (old | new)
    · exact grows.keeps other cls' old
    · cases List.mem_singleton.mp new
      rw [SymbolTable.get?_declare declared, if_pos rfl]

/-- The next name of a parameter list belongs to a parameter. -/
def ParameterState.Typed : ParameterState → Prop
  | .name cls => cls = .int ∨ cls = .string
  | _ => True

theorem parameterClass?_typed {a : Atom} {cls : SymbolClass} (found : parameterClass? a = some cls) :
    cls = .int ∨ cls = .string := by
  simp only [parameterClass?] at found
  split at found
  · cases found
  · split at found
    · cases found
      exact Or.inl rfl
    · split at found
      · cases found
        exact Or.inr rfl
      · cases found

/-- A parameter list adds the names that its texts declare. -/
theorem parametersFrom_entries {symbols : SymbolTable} {texts : List String} {taken index : Nat}
    {state : ParameterState} {atoms : List Atom} {params : Parameters}
    (success : parametersFrom symbols texts taken index state atoms = .ok params)
    (typed : state.Typed) :
    ∃ entries : List (String × SymbolClass), (∀ entry ∈ entries, IsParameter entry) ∧
      params.texts = texts.reverse ++ entries.map parameterText ∧
      ∀ name cls, params.symbols.get? name = some cls ↔
        symbols.get? name = some cls ∨ (name, cls) ∈ entries := by
  have finished : ∃ entries : List (String × SymbolClass), (∀ entry ∈ entries, IsParameter entry) ∧
      texts.reverse = texts.reverse ++ entries.map parameterText ∧
      ∀ name cls, symbols.get? name = some cls ↔
        symbols.get? name = some cls ∨ (name, cls) ∈ entries := ⟨[], by simp⟩
  induction atoms generalizing symbols texts taken index state with
  | nil => simp [parametersFrom] at success
  | cons a rest ih =>
      cases state with
      | name cls =>
          simp only [parametersFrom] at success
          split at success
          · rename_i isName
            simp only [Bool.and_eq_true] at isName
            split at success
            · rename_i symbols' declared
              obtain ⟨entries, valid, text, table⟩ := ih success trivial ⟨[], by simp⟩
              refine ⟨(a.text, cls) :: entries, ?_, ?_, ?_⟩
              · intro entry member
                rcases List.mem_cons.mp member with rfl | later
                · exact ⟨isName.2, typed⟩
                · exact valid entry later
              · rw [text, List.reverse_cons, List.append_assoc]
                rfl
              · intro other cls'
                rw [table, get?_declare_iff declared, List.mem_singleton, List.mem_cons, or_assoc]
            · cases success
          · cases success
      | separator =>
          simp only [parametersFrom] at success
          split at success
          · cases success
            exact finished
          · split at success
            · exact ih success trivial finished
            · cases success
      | start =>
          simp only [parametersFrom] at success
          split at success
          · cases success
            exact finished
          · split at success
            · rename_i cls found
              exact ih success (parameterClass?_typed found) finished
            · cases success
      | type =>
          simp only [parametersFrom] at success
          split at success
          · rename_i cls found
            exact ih success (parameterClass?_typed found) finished
          · cases success

namespace Translator

/-- The variables of the table are the identifiers that the emitted lines declare. -/
def Accounts (t : Translator) : Prop :=
  ∀ name cls, cls.isVariable = true → (t.symbols.get? name = some cls ↔
    isIdentifier name = true ∧ ∃ line ∈ t.lines, Declares name cls line)

variable {t t' : Translator} {previous : Option Atom} {i n : Nat} {a : Atom} {rest : List Atom}

/-- A line and the table grow by the same names. -/
theorem Accounts.add (accounts : t.Accounts) {line : String} {entries : List (String × SymbolClass)}
    (lines : t'.lines = t.lines ++ [line]) (declares : LineDeclares line entries)
    (names : ∀ entry ∈ entries, isIdentifier entry.1 = true)
    (table : ∀ name cls, t'.symbols.get? name = some cls ↔
      t.symbols.get? name = some cls ∨ (name, cls) ∈ entries) : t'.Accounts := by
  intro name cls isVariable
  rw [table, accounts name cls isVariable, lines]
  constructor
  · rintro (⟨isName, line', member, old⟩ | added)
    · exact ⟨isName, line', List.mem_append_left _ member, old⟩
    · have isName := names _ added
      exact ⟨isName, line, List.mem_append_right _ (List.mem_singleton_self _),
        (declares name cls isName).mpr added⟩
  · rintro ⟨isName, line', member, found⟩
    rcases List.mem_append.mp member with old | here
    · exact Or.inl ⟨isName, line', old, found⟩
    · cases List.mem_singleton.mp here
      exact Or.inr ((declares name cls isName).mp found)

theorem Accounts.add_plain (accounts : t.Accounts) {line : String}
    (lines : t'.lines = t.lines ++ [line]) (declares : LineDeclares line [])
    (symbols : t'.symbols = t.symbols) : t'.Accounts :=
  accounts.add lines declares (by simp) (by simp [symbols])

theorem Accounts.add_closing (accounts : t.Accounts) (lines : t'.lines = t.lines ++ [closingLine])
    (symbols : t'.symbols = t.symbols) : t'.Accounts :=
  accounts.add_plain lines (.none (by decide)) symbols

theorem Accounts.add_variable (accounts : t.Accounts) {line name : String} {cls : SymbolClass}
    (lines : t'.lines = t.lines ++ [line]) (isName : isIdentifier name = true)
    (declares : LineDeclares line [(name, cls)])
    (declared : t.symbols.declare name cls = .ok t'.symbols) : t'.Accounts :=
  accounts.add lines declares (by simpa using isName) (get?_declare_iff declared)

theorem Accounts.settle (accounts : t.Accounts) : t.settle.Accounts := by
  rcases t.settle_lines with same | closed
  · intro name cls isVariable
    rw [settle_symbols, same]
    exact accounts name cls isVariable
  · exact accounts.add_closing closed settle_symbols

theorem Accounts.classOf_eq (accounts : t.Accounts) {name : String} {cls : SymbolClass}
    (isVariable : cls.isVariable = true) :
    t.symbols.classOf name = cls ↔
      isIdentifier name = true ∧ ∃ line ∈ t.lines, Declares name cls line := by
  have known : cls ≠ .unknown := by
    rintro rfl
    cases isVariable
  rw [SymbolTable.classOf_eq known, accounts name cls isVariable]

/-- What a construct declares, its line declares. -/
theorem Effect.accounts (effect : Effect t previous i a rest n t') (accounts : t.Accounts)
    (word : a.kind = .word → Scanner.IsAtomText a.text.toList) : t'.Accounts := by
  cases effect with
  | @print arg taken isPrint args =>
      refine accounts.add_plain rfl ?_ rfl
      rw [String.append_assoc]
      exact lineDeclares_printf _
  | @printFormatted keyword verb arg taken isPrint rule args =>
      refine accounts.add_plain rfl ?_ rfl
      have shape : "printf(\"" ++ verb ++ "\\n\", " ++ arg ++ ");" =
          "printf(" ++ ("\"" ++ verb ++ "\\n\", " ++ arg ++ ");") := by
        simp [← String.append_assoc]
      rw [shape]
      exact lineDeclares_printf _
  | @printListElement list position taken isPrint args isList =>
      refine accounts.add_plain rfl ?_ rfl
      have shape : "printf(\"%d\\n\", " ++ list ++ "[" ++ position ++ "]);" =
          "printf(" ++ ("\"%d\\n\", " ++ list ++ "[" ++ position ++ "]);") := by
        simp [← String.append_assoc]
      rw [shape]
      exact lineDeclares_printf _
  | declaration isType scalar shape isName isEquals value declared =>
      exact accounts.add_variable rfl isName.2 (lineDeclares_scalar isName.2 scalar _) declared
  | intList isType shape isName isEquals isBracket read declared =>
      exact accounts.add_variable rfl isName.2
        (.single (.intList _ rfl) (declaredIn_intList isName.2 _)) declared
  | assignment isWord free assignable shape isEquals together value =>
      have isName : isIdentifier a.text = true := by
        rcases assignable with isInt | isBool
        · exact ((accounts.classOf_eq rfl).mp isInt).1
        · exact ((accounts.classOf_eq rfl).mp isBool).1
      exact accounts.add_plain rfl (lineDeclares_assignment isName free _) rfl
  | @call args taken isWord free isFunction read resolved =>
      refine accounts.add_plain rfl ?_ rfl
      rw [String.append_assoc]
      exact lineDeclares_call (word isWord) free _
  | forLoop isFor shape isName isFrom lowBound isTo highBound declared =>
      exact accounts.add_variable rfl isName.2 (lineDeclares_loop isName.2 _ _) declared
  | thenEnd isThen shape isEnd blocks isLoop => exact accounts.add_closing rfl rfl
  | conditional isIf condition =>
      refine accounts.add_plain rfl ?_ rfl
      rw [String.append_assoc]
      exact lineDeclares_conditional _
  | elseIf => exact accounts.add_plain rfl (.none (by decide)) rfl
  | otherwise => exact accounts.add_plain rfl (.none (by decide)) rfl
  | mainFunction isFunction atTop shape isMain read bare =>
      obtain ⟨entries, valid, texts, table⟩ := parametersFrom_entries read trivial
      have none : entries = [] := by simpa [bare] using texts
      subst none
      exact accounts.add rfl (.none (by decide)) (by simp) table
  | @namedFunction name tail params isFunction atTop shape isName notMain read =>
      obtain ⟨entries, valid, texts, table⟩ := parametersFrom_entries read trivial
      have header : signature name.text params.texts ++ "\x7b" =
          headerLine name.text (entries.map parameterText) := by
        simp [signature, headerLine, texts, String.append_assoc]
      refine accounts.add rfl ?_ (fun entry member => (valid entry member).1) table
      rw [header]
      exact lineDeclares_header isName.2 valid
  | closeBrace notWord brace blocks isLoop => exact accounts.settle
  | closeBlock notWord brace blocks notLoop => exact accounts.settle.add_closing rfl rfl
  | directive => exact accounts

end Translator

/-- The construct that starts with `a` uses `name`, which has to be a variable of one of the classes. -/
inductive Uses (symbols : SymbolTable) (index : Nat) (a : Atom) (rest : List Atom) :
    String → List SymbolClass → Prop where
  /-- the target of an assignment -/
  | target (isWord : a.kind = .word) (free : a.text ∉ leadingWords)
      (notCall : symbols.classOf a.text ≠ .function) :
      Uses symbols index a rest a.text [.int, .bool]
  /-- a list that an element is printed of -/
  | list {list : String} {others : List String} {taken : Nat} (word : a.IsWord "print_list_element")
      (args : arguments (index + 1) rest = .ok (list :: others, taken)) :
      Uses symbols index a rest list [.intList]
  /-- a bound of a loop that is no number -/
  | bound {atom : Atom} (word : a.IsWord "for") (found : atom ∈ rest[2]? ∨ atom ∈ rest[4]?)
      (notNumber : isInteger atom.text = false) : Uses symbols index a rest atom.text [.int]
  /-- an argument of a call that is a single name -/
  | argument {arg : String} {args : List String} {taken : Nat} (isWord : a.kind = .word)
      (free : a.text ∉ leadingWords) (isCall : symbols.classOf a.text = .function)
      (read : arguments (index + 1) rest = .ok (args, taken)) (member : arg ∈ args)
      (isName : isIdentifier arg = true) (notLiteral : arg ∉ ["true", "false"]) :
      Uses symbols index a rest arg [.int, .string, .bool, .intList]

theorem isVariable_of_resolved {symbols : SymbolTable} {args : List String} {position : Nat}
    (resolved : Translator.unresolvedArgument? symbols position args = none) {arg : String}
    (member : arg ∈ args) (isName : isIdentifier arg = true) (notLiteral : arg ∉ ["true", "false"]) :
    symbols.isVariable arg = true := by
  induction args generalizing position with
  | nil => cases member
  | cons first rest ih =>
      simp only [Translator.unresolvedArgument?] at resolved
      split at resolved
      · cases resolved
      · rename_i known
        rcases List.mem_cons.mp member with rfl | later
        · simp only [List.mem_cons, List.not_mem_nil, or_false, not_or] at notLiteral
          simpa [isName, notLiteral] using known
        · exact ih resolved later

namespace Translator

variable {t t' : Translator} {previous : Option Atom} {i n : Nat} {a : Atom} {rest : List Atom}

/-- A word of no construct of its own is assigned to or called. -/
theorem Effect.of_free (effect : Effect t previous i a rest n t') (isWord : a.kind = .word)
    (free : a.text ∉ leadingWords) :
    t.symbols.classOf a.text ∈ [SymbolClass.int, .bool] ∨
      t.symbols.classOf a.text = .function ∧ ∃ args taken, arguments (i + 1) rest = .ok (args, taken) ∧
        unresolvedArgument? t.symbols 1 args = none := by
  simp only [leadingWords, List.mem_cons, List.not_mem_nil, or_false, not_or] at free
  cases effect with
  | assignment _ _ assignable => exact Or.inl (by simpa using assignable)
  | call _ _ isFunction read resolved => exact Or.inr ⟨isFunction, _, _, read, resolved⟩
  | printFormatted word rule args =>
      simp only [List.mem_cons, Prod.mk.injEq, List.not_mem_nil, or_false] at rule
      rcases rule with ⟨rfl, -⟩ | ⟨rfl, -⟩ <;> simp_all [Atom.IsWord]
  | declaration word scalar =>
      simp only [List.mem_cons, List.not_mem_nil, or_false] at scalar
      rcases scalar with rfl | rfl | rfl <;> simp_all [Atom.IsWord, SymbolClass.name]
  | closeBrace notWord => exact absurd isWord notWord
  | closeBlock notWord => exact absurd isWord notWord
  | _ => simp_all [Atom.IsWord]

theorem Effect.of_forLoop (effect : Effect t previous i a rest n t') (word : a.IsWord "for") :
    ∃ name start low stop high tail, rest = name :: start :: low :: stop :: high :: tail ∧ name.IsName ∧
      start.is "from" = true ∧ low.IsBound t.symbols ∧ stop.is "to" = true ∧ high.IsBound t.symbols ∧
      t'.lines = t.lines ++ [loopLine name.text low.text high.text] := by
  obtain ⟨isWord, text⟩ := word
  cases effect with
  | forLoop _ shape isName isFrom lowBound isTo highBound =>
      exact ⟨_, _, _, _, _, _, shape, isName, isFrom, lowBound, isTo, highBound, rfl⟩
  | printFormatted word rule args =>
      simp only [List.mem_cons, Prod.mk.injEq, List.not_mem_nil, or_false] at rule
      rcases rule with ⟨rfl, -⟩ | ⟨rfl, -⟩ <;> simp_all [Atom.IsWord]
  | declaration word scalar =>
      simp only [List.mem_cons, List.not_mem_nil, or_false] at scalar
      rcases scalar with rfl | rfl | rfl <;> simp_all [Atom.IsWord, SymbolClass.name]
  | _ => simp_all [Atom.IsWord, leadingWords]

/-- The bounds of a loop are numbers or variables. -/
theorem Effect.of_for (effect : Effect t previous i a rest n t') (word : a.IsWord "for")
    {atom : Atom} (found : atom ∈ rest[2]? ∨ atom ∈ rest[4]?) : atom.IsBound t.symbols := by
  obtain ⟨name, start, low, stop, high, tail, rfl, -, -, lowBound, -, highBound, -⟩ :=
    effect.of_forLoop word
  rcases found with lower | upper
  · cases lower
    exact lowBound
  · cases upper
    exact highBound

theorem Effect.of_printListElement (effect : Effect t previous i a rest n t')
    (word : a.IsWord "print_list_element") {list : String} {others : List String} {taken : Nat}
    (args : arguments (i + 1) rest = .ok (list :: others, taken)) :
    t.symbols.classOf list = .intList := by
  obtain ⟨isWord, text⟩ := word
  cases effect with
  | printListElement _ args' isList =>
      rw [args'] at args
      cases args
      exact isList
  | printFormatted word rule args =>
      simp only [List.mem_cons, Prod.mk.injEq, List.not_mem_nil, or_false] at rule
      rcases rule with ⟨rfl, -⟩ | ⟨rfl, -⟩ <;> simp_all [Atom.IsWord]
  | declaration word scalar =>
      simp only [List.mem_cons, List.not_mem_nil, or_false] at scalar
      rcases scalar with rfl | rfl | rfl <;> simp_all [Atom.IsWord, SymbolClass.name]
  | _ => simp_all [Atom.IsWord, leadingWords]

/-- A construct is accepted only if what it uses has one of the classes it needs. -/
theorem Effect.uses (effect : Effect t previous i a rest n t') {name : String}
    {classes : List SymbolClass} (uses : Uses t.symbols i a rest name classes) :
    t.symbols.classOf name ∈ classes := by
  cases uses with
  | target isWord free notCall =>
      rcases effect.of_free isWord free with assignable | ⟨isFunction, -⟩
      · exact assignable
      · exact absurd isFunction notCall
  | list word args => exact List.mem_singleton.mpr (effect.of_printListElement word args)
  | bound word found notNumber =>
      rcases (effect.of_for word found).2 with isNumber | isInt
      · rw [notNumber] at isNumber
        cases isNumber
      · exact List.mem_singleton.mpr isInt
  | argument isWord free isCall read member isName notLiteral =>
      rcases effect.of_free isWord free with assignable | ⟨-, args', taken', read', resolved⟩
      · rw [isCall] at assignable
        simp at assignable
      · rw [read'] at read
        cases read
        have isVariable := isVariable_of_resolved resolved member isName notLiteral
        rw [SymbolTable.isVariable] at isVariable
        generalize t.symbols.classOf name = cls at isVariable ⊢
        cases cls <;> simp_all [SymbolClass.isVariable]

end Translator

theorem Uses.isVariable {symbols : SymbolTable} {index : Nat} {a : Atom} {rest : List Atom}
    {name : String} {classes : List SymbolClass} (uses : Uses symbols index a rest name classes)
    {cls : SymbolClass} (member : cls ∈ classes) : cls.isVariable = true := by
  cases uses <;> simp only [List.mem_cons, List.not_mem_nil, or_false] at member
  · rcases member with rfl | rfl <;> rfl
  · rw [member]
    rfl
  · rw [member]
    rfl
  · rcases member with rfl | rfl | rfl | rfl <;> rfl

/-- After the scan for functions the table has no variables, and no line is there to declare one. -/
theorem accounts_of_analyze {file : String} {atoms : List Atom} {u : CompilationUnit}
    (analyzed : ({ file, atoms } : CompilationUnit).analyze = .ok u) : u.translator.Accounts := by
  obtain ⟨-, noLines, -, functions⟩ := analyze_eq_ok analyzed
  intro name cls isVariable
  constructor
  · intro found
    rcases functions.adds name cls found with old | rfl
    · cases old
    · cases isVariable
  · rintro ⟨-, line, member, -⟩
    rw [CompilationUnit.translator, noLines] at member
    cases member

/-- Between two constructs of a run the table accounts for the lines. -/
theorem Cursor.Runs.accounts {file : String} {lines : List Bytes} {c d : Cursor}
    (runs : Runs (lex file lines) c d) (accounts : c.state.Accounts) : d.state.Accounts := by
  induction runs with
  | refl => exact accounts
  | tail _ next ih =>
      obtain ⟨a, rest, n, here, index, effect⟩ := next
      have member : a ∈ lex file lines := by
        apply List.mem_of_mem_drop
        rw [here]
        exact List.mem_cons_self
      exact effect.accounts ih (isAtomText_of_mem_lex member)

theorem Translator.Accounts.closeRemaining {t t' : Translator} (accounts : t.Accounts)
    (closed : t.closeRemaining t.blocks = .ok t') : t'.Accounts :=
  (closeRemaining_induction (P := Accounts)
    (fun _ _ _ _ _ accounts => accounts.add_closing rfl rfl) accounts closed).1

theorem Translator.Accounts.unique {t : Translator} (accounts : t.Accounts) {name : String}
    (isName : isIdentifier name = true) {first second : SymbolClass} {line line' : String}
    (here : line ∈ t.lines) (there : line' ∈ t.lines) (declares : Declares name first line)
    (declares' : Declares name second line') : first = second := by
  have typed {cls : SymbolClass} {line : String} (found : Declares name cls line) :
      cls.isVariable = true := by
    cases found <;> rfl
  have known := (accounts name first (typed declares)).mpr ⟨isName, line, here, declares⟩
  have known' := (accounts name second (typed declares')).mpr ⟨isName, line', there, declares'⟩
  rw [known] at known'
  exact Option.some.inj known'

open Cursor in
/-- Every variable has its declaration in C. Between any two constructs the table holds exactly the
variables that the lines declare, each in the class of its type; what a construct uses is declared in an
earlier line with a type that it allows; and no name is declared with two types. -/
theorem variables_are_declared (file : String) (lines : List Bytes) (u : CompilationUnit)
    (analyzed : ({ file, atoms := lex file lines } : CompilationUnit).analyze = .ok u) :
    (∀ c, Runs (lex file lines) ⟨0, u.translator⟩ c →
      (∀ name cls, cls.isVariable = true → (c.state.symbols.classOf name = cls ↔
        isIdentifier name = true ∧ ∃ line ∈ c.state.lines, Declares name cls line)) ∧
      (∀ a rest d, (lex file lines).drop c.index = a :: rest → Next (lex file lines) c d →
        ∀ name classes, Uses c.state.symbols c.index a rest name classes →
          ∃ cls ∈ classes, ∃ line ∈ c.state.lines, Declares name cls line)) ∧
    ∀ v, u.translate = .ok v → ∀ name, isIdentifier name = true →
      ∀ line ∈ v.lines, ∀ line' ∈ v.lines, ∀ cls cls', Declares name cls line →
        Declares name cls' line' → cls = cls' := by
  have start := accounts_of_analyze analyzed
  refine ⟨?_, ?_⟩
  · intro c runs
    have accounts := runs.accounts start
    refine ⟨fun name cls isVariable => accounts.classOf_eq isVariable, ?_⟩
    rintro a rest d here ⟨a', rest', n, here', -, effect⟩ name classes uses
    rw [here] at here'
    cases here'
    have member := effect.uses uses
    exact ⟨_, member, ((accounts.classOf_eq (uses.isVariable member)).mp rfl).2⟩
  · intro v translated name isName line here line' there cls cls' declares declares'
    obtain ⟨c, t, runs, -, closed, rfl⟩ := CompilationUnit.translate_eq_ok.mp translated
    rw [(analyze_eq_ok analyzed).1] at runs
    exact ((runs.accounts start).closeRemaining closed).unique isName here there declares declares'

open Cursor in
/-- The bound of a loop in a function is a parameter: its declaration is the function's own line, and
no later line makes a string of it. -/
theorem variables_are_declared_parameter :
    let lines := ["function show(int n, string label) \x7b", "for i from 1 to n \x7b",
      "show(i, label)", "\x7d", "\x7d"].map Utf8.encode
    let atoms := lex "a.dawn" lines
    let header := "void show(int n, char label[])\x7b"
    ∃ u, ({ file := "a.dawn", atoms } : CompilationUnit).analyze = .ok u ∧
      (∃ c d a rest, Runs atoms ⟨0, u.translator⟩ c ∧ Next atoms c d ∧
        atoms.drop c.index = a :: rest ∧ Uses c.state.symbols c.index a rest "n" [.int] ∧
        c.state.lines = [header] ∧ Declares "n" .int header) ∧
      ∃ v, u.translate = .ok v ∧ v.lines.length = 5 ∧ ∀ line ∈ v.lines, ¬ Declares "n" .string line := by
  intro lines atoms header
  let u : CompilationUnit :=
    { file := "a.dawn", atoms, symbols := .ofList [("show", .function)], phase := .importScan }
  let symbols : SymbolTable := .ofList [("show", .function), ("n", .int), ("label", .string)]
  let prototypes := ["void show(int n, char label[]);"]
  let c : Cursor := ⟨8, ⟨symbols, prototypes, [header], [⟨.function, 0, false⟩], none⟩⟩
  let d : Cursor := ⟨14, ⟨.ofList (symbols.entries ++ [("i", .int)]), prototypes,
    [header, "for(int i = 1; i <= n; i++)\x7b"], [⟨.loop, 8, false⟩, ⟨.function, 0, false⟩], none⟩⟩
  obtain ⟨between, once⟩ := variables_are_declared "a.dawn" lines u rfl
  have runs : Runs atoms ⟨0, u.translator⟩ c := .single (by decide)
  have next : Next atoms c d := by decide
  let word (text : String) : Atom := { text, kind := .word, file := "a.dawn", line := 2, stmt := 3 }
  let rest := [word "i", word "from", word "1", word "to", word "n"] ++ atoms.drop 14
  have here : atoms.drop c.index = word "for" :: rest := by decide
  have bound : word "n" ∈ rest[4]? := rfl
  have uses : Uses c.state.symbols c.index (word "for") rest "n" [.int] :=
    .bound ⟨rfl, rfl⟩ (Or.inr bound) (by decide)
  obtain ⟨cls, isInt, line, emitted, declares⟩ := (between c runs).2 _ rest d here next "n" _ uses
  rw [List.mem_singleton] at isInt emitted
  subst isInt emitted
  obtain ⟨v, translated, count, kept⟩ :
      ∃ v, u.translate = .ok v ∧ v.lines.length = 5 ∧ header ∈ v.lines := by
    have result : (u.translate.toOption.map fun v => (v.lines.length, decide (header ∈ v.lines))) =
        some (5, true) := by decide
    obtain ⟨v, translated, facts⟩ := toOption_map_eq_some.mp result
    rw [Prod.mk.injEq, decide_eq_true_eq] at facts
    exact ⟨v, translated, facts.1, facts.2⟩
  refine ⟨u, rfl, ⟨c, d, _, rest, runs, next, here, uses, rfl, declares⟩, v, translated, count, ?_⟩
  intro line member asString
  cases once v translated "n" (by decide) header kept line member .int .string declares asString

end DawnC
