import DawnC.Proofs.Program.Constructs

set_option autoImplicit false

namespace DawnC

variable {file : String}

theorem usesWord_append (first second : List Atom) (word : String) :
    usesWord (first ++ second) word = (usesWord first word || usesWord second word) :=
  List.any_append

theorem usesWord_pieceAtoms {word : String} (isWord : isWordText word = true) (line stmt : Int)
    (pieces : List Piece) :
    usesWord (pieceAtoms file line stmt pieces) word = decide (Piece.run word ∈ pieces) := by
  induction pieces generalizing stmt with
  | nil => rfl
  | cons piece rest ih =>
      cases piece with
      | run text =>
          rw [pieceAtoms, ← List.singleton_append, usesWord_append, ih]
          by_cases same : text = word
          · subst same
            simp [usesWord, kindOf_of_isWordText isWord]
          · have other : word ≠ text := fun equal => same equal.symm
            simp [usesWord, same, other]
      | mark c =>
          rw [pieceAtoms, usesWord_append, ih]
          split
          · simp [usesWord]
          · simp [usesWord]

theorem usesWord_lineAtoms {word : String} (isWord : isWordText word = true) (line stmt : Int)
    (lines : List (List Piece)) :
    usesWord (lineAtoms file line stmt lines) word =
      lines.any fun pieces => Piece.run word ∈ pieces := by
  induction lines generalizing line stmt with
  | nil => rfl
  | cons pieces rest ih =>
      rw [lineAtoms, usesWord_append, usesWord_pieceAtoms isWord, ih, List.any_cons]

/-- The headers of a program are those of its words. -/
theorem requiredHeaders_source (file : String) (program : Tree) :
    requiredHeaders (lineAtoms file 1 0 program.source) [] = program.headers := by
  have uses (word : String) (isWord : isWordText word = true) :
      usesWord (lineAtoms file 1 0 program.source) word = program.writes word :=
    usesWord_lineAtoms isWord 1 0 program.source
  simp only [requiredHeaders, headerRules, List.foldl_cons, List.foldl_nil, Tree.headers,
    List.any_cons, List.any_nil, Bool.or_false, uses "print" (by decide),
    uses "print_int" (by decide), uses "print_str" (by decide),
    uses "print_list_element" (by decide), uses "bool" (by decide), Bool.or_eq_true]
  cases program.writes "print" <;> cases program.writes "print_int" <;>
    cases program.writes "print_str" <;> cases program.writes "print_list_element" <;>
    cases program.writes "bool" <;> rfl

theorem is_function_of_mem {line stmt : Int} {pieces : List Piece} {a : Atom}
    (absent : Piece.run "function" ∉ pieces) (member : a ∈ pieceAtoms file line stmt pieces) :
    a.is "function" = false := by
  induction pieces generalizing stmt with
  | nil => cases member
  | cons piece rest ih =>
      rw [List.mem_cons, not_or] at absent
      cases piece with
      | run text =>
          rcases List.mem_cons.mp member with rfl | later
          · exact Atom.is_eq_false fun same => absent.1 (congrArg Piece.run same).symm
          · exact ih absent.2 later
      | mark c =>
          rcases List.mem_append.mp member with here | later
          · split at here
            · cases List.mem_singleton.mp here
              refine Atom.is_eq_false fun same => ?_
              have length := congrArg String.length (show String.ofList [c] = "function" from same)
              rw [String.length_ofList, List.length_singleton] at length
              exact absurd length (by decide)
            · cases here
          · exact ih absent.2 later

theorem declareFunctions_skip {front : List Atom}
    (other : ∀ a ∈ front, a.is "function" = false) (table : SymbolTable) (index : Nat)
    (rest : List Atom) :
    declareFunctions table index (front ++ rest) =
      declareFunctions table (index + front.length) rest := by
  induction front generalizing index with
  | nil => rfl
  | cons a front ih =>
      have here : (!a.is "function") = true := by
        rw [other a List.mem_cons_self]
        rfl
      rw [List.cons_append, declareFunctions.eq_def]
      simp only [here, if_true]
      rw [ih (fun b member => other b (List.mem_cons_of_mem _ member)), List.length_cons,
        Nat.add_right_comm, Nat.add_assoc]

namespace Phrase

variable {stops : List Char}

theorem function_not_mem (phrase : Phrase stops) : Piece.run "function" ∉ phrase.pieces := by
  intro member
  rcases mem_intersperse member with mark | token
  · cases mark
  · have valid := List.all_eq_true.mp phrase.valid _ token
    simp [isToken] at valid

theorem function_not_mem_commaSeparated (phrases : List (Phrase stops)) :
    Piece.run "function" ∉ commaSeparated (phrases.map Phrase.pieces) := by
  intro member
  rcases mem_intercalate member with mark | ⟨part, inside, found⟩
  · simp at mark
  · obtain ⟨phrase, -, rfl⟩ := List.mem_map.mp inside
    exact phrase.function_not_mem found

end Phrase

theorem Name.ne_function (name : Name) : name.text ≠ "function" :=
  fun same => name.free (same ▸ by decide)

theorem Bound.ne_function (bound : Bound) : bound.text ≠ "function" := by
  cases bound with
  | literal text integer =>
      rintro same
      rw [show text = "function" from same] at integer
      exact absurd integer (by decide)
  | name name => exact name.ne_function

/-- The word `function` stands in no line of a statement. -/
theorem StatementLine.function_not_mem {pieces : List Piece} (line : StatementLine pieces) :
    Piece.run "function" ∉ pieces := by
  cases line with
  | simple statement =>
      cases statement with
      | print printer argument =>
          cases printer <;> simp [Simple.source, Printer.keyword, Phrase.function_not_mem]
      | printElement list position =>
          simp [Simple.source, list.ne_function.symm, Phrase.function_not_mem]
      | declare type name value =>
          cases type <;>
            simp [Simple.source, Scalar.cls, SymbolClass.name, name.ne_function.symm,
              Phrase.function_not_mem]
      | declareList name elements =>
          simp [Simple.source, name.ne_function.symm, Phrase.function_not_mem_commaSeparated]
      | assign name value =>
          simp [Simple.source, name.ne_function.symm, Phrase.function_not_mem]
      | call function arguments =>
          simp [Simple.source, function.ne_function.symm, Phrase.function_not_mem_commaSeparated]
  | loopHead index low high braced =>
      cases braced <;>
        simp [DawnC.loopHead, index.ne_function.symm, low.ne_function.symm, high.ne_function.symm]
  | loopEnd braced => cases braced <;> decide
  | ifHead condition => simp [DawnC.ifHead, Phrase.function_not_mem]
  | elseIf condition => simp [DawnC.ifHead, Phrase.function_not_mem]
  | otherwise => decide
  | closing => decide

theorem Parameter.function_not_mem (parameters : List Parameter) :
    Piece.run "function" ∉ commaSeparated (parameters.map Parameter.pieces) := by
  intro member
  rcases mem_intercalate member with mark | ⟨part, inside, found⟩
  · simp at mark
  · obtain ⟨parameter, -, rfl⟩ := List.mem_map.mp inside
    have type : "function" ≠ parameter.cls.name := by
      rcases parameter.cls_cases with isInt | isString
      · exact isInt ▸ (by decide : "function" ≠ SymbolClass.int.name)
      · exact isString ▸ (by decide : "function" ≠ SymbolClass.string.name)
    simp [Parameter.pieces, type, parameter.name.ne_function.symm] at found

theorem lineAtoms_append (file : String) (line stmt : Int) (first second : List (List Piece)) :
    ∃ line' stmt', lineAtoms file line stmt (first ++ second) =
      lineAtoms file line stmt first ++ lineAtoms file line' stmt' second := by
  induction first generalizing line stmt with
  | nil => exact ⟨line, stmt, rfl⟩
  | cons pieces rest ih =>
      obtain ⟨line', stmt', split⟩ := ih (line + 1) (stmtAfter stmt pieces + 2)
      exact ⟨line', stmt', by rw [List.cons_append, lineAtoms, split, lineAtoms, List.append_assoc]⟩

theorem declareFunctions_lines {lines : List (List Piece)}
    (absent : ∀ pieces ∈ lines, Piece.run "function" ∉ pieces) (line stmt : Int)
    (table : SymbolTable) (index : Nat) (rest : List Atom) :
    declareFunctions table index (lineAtoms file line stmt lines ++ rest) =
      declareFunctions table (index + (lineAtoms file line stmt lines).length) rest := by
  refine declareFunctions_skip ?_ table index rest
  induction lines generalizing line stmt with
  | nil => exact fun a member => absurd member List.not_mem_nil
  | cons pieces later ih =>
      intro a member
      rcases List.mem_append.mp member with here | after
      · exact is_function_of_mem (absent pieces List.mem_cons_self) here
      · exact ih (fun other inside => absent other (List.mem_cons_of_mem _ inside)) _ _ a after

/-- What the name of a function declares; the entry function is not declared. -/
def Introduces (table : SymbolTable) (name : String) (after : SymbolTable) : Prop :=
  if name = entryFunction then after = table else table.declare name .function = .ok after

theorem declareFunctions_word {table after : SymbolTable} {name : String}
    (introduces : Introduces table name after) (line stmt : Int) (index : Nat) (rest : List Atom) :
    declareFunctions table index
        (wordAtom file line stmt "function" :: wordAtom file line stmt name :: rest) =
      declareFunctions after (index + 1) (wordAtom file line stmt name :: rest) := by
  have isWord : ¬ (wordAtom file line stmt name).kind ≠ .word := not_not.mpr rfl
  have named : (wordAtom file line stmt name).text = name := rfl
  rw [declareFunctions, wordAtom_is, if_neg (by decide), if_neg isWord]
  simp only [named]
  unfold Introduces at introduces
  split at introduces
  · rename_i isMain
    rw [if_pos isMain, introduces]
  · rename_i notMain
    rw [if_neg notMain]
    simp only [introduces]

/-- A function's head introduces its name, and the lines after it nothing. -/
theorem declareFunctions_function {table after : SymbolTable} {name : String}
    (word : isWordText name = true) (other : name ≠ "function")
    (introduces : Introduces table name after) (parameters : List Parameter) (body : Body)
    (line stmt : Int) (index : Nat) (rest : List Atom) :
    ∃ index', declareFunctions table index
        (lineAtoms file line stmt (functionHead name parameters ::
          (body.source ++ [[.mark '\x7d']])) ++ rest) =
      declareFunctions after index' rest := by
  have keyword : Scanner.kindOf "function".toList = .word := by decide
  have named := kindOf_of_isWordText word
  have absent : Piece.run "function" ∉ Piece.mark '(' ::
      (commaSeparated (parameters.map Parameter.pieces) ++
        [Piece.mark ')', .mark ' ', .mark '\x7b']) := by
    simp [Parameter.function_not_mem]
  have notFunction : ∀ a ∈ [wordAtom file line stmt name], a.is "function" = false := by
    simpa using Atom.is_eq_false other
  rw [lineAtoms, List.append_assoc, functionHead, pieceAtoms_run keyword, pieceAtoms_blank,
    pieceAtoms_run named, List.cons_append, List.cons_append, declareFunctions_word introduces,
    ← List.singleton_append, declareFunctions_skip notFunction,
    declareFunctions_skip fun a => is_function_of_mem absent,
    declareFunctions_lines fun pieces member =>
      (body.line_of_mem_block pieces member).function_not_mem]
  exact ⟨_, rfl⟩

theorem declareFunctions_item {classes : String → SymbolClass} (item : Item) {table : SymbolTable}
    {known : Declarations} (knows : table.Knows known)
    (agrees : Agrees classes (known ++ Tree.functions [item])) (line stmt : Int) (index : Nat)
    (rest : List Atom) :
    ∃ after index', declareFunctions table index (lineAtoms file line stmt item.source ++ rest) =
      declareFunctions after index' rest ∧ after.Knows (known ++ Tree.functions [item]) := by
  cases item with
  | statement statement =>
      refine ⟨table, _, declareFunctions_lines ?_ line stmt table index rest, ?_⟩
      · exact fun pieces member => (statement.line_of_mem pieces member).function_not_mem
      · exact (List.append_nil known).symm ▸ knows
  | main body =>
      have introduces : Introduces table entryFunction table := by rw [Introduces, if_pos rfl]
      obtain ⟨index', scanned⟩ := declareFunctions_function (by decide) (by decide) introduces []
        body line stmt index rest
      exact ⟨table, index', scanned, (List.append_nil known).symm ▸ knows⟩
  | function name notMain parameters body =>
      obtain ⟨after, declared, knows'⟩ := knows.declare agrees
      have introduces : Introduces table name.text after := by
        rw [Introduces, if_neg notMain]
        exact declared
      obtain ⟨index', scanned⟩ := declareFunctions_function name.isWordText name.ne_function
        introduces parameters body line stmt index rest
      exact ⟨after, index', scanned, knows'⟩

/-- The analysis finds the functions of a program. -/
theorem declareFunctions_items (file : String) {classes : String → SymbolClass} (items : List Item)
    {table : SymbolTable} {known : Declarations} (knows : table.Knows known)
    (agrees : Agrees classes (known ++ Tree.functions items)) (line stmt : Int) (index : Nat) :
    ∃ after, declareFunctions table index
        (lineAtoms file line stmt (items.flatMap Item.source)) = .ok after ∧
      after.Knows (known ++ Tree.functions items) := by
  induction items generalizing table known line stmt index with
  | nil => exact ⟨table, rfl, (List.append_nil known).symm ▸ knows⟩
  | cons item items ih =>
      have split : known ++ Tree.functions (item :: items) =
          known ++ Tree.functions [item] ++ Tree.functions items := by
        simp [Tree.functions, List.flatMap_cons]
      rw [split] at agrees ⊢
      obtain ⟨line', stmt', parts⟩ :=
        lineAtoms_append file line stmt item.source (items.flatMap Item.source)
      obtain ⟨after, index', scanned, knows'⟩ :=
        declareFunctions_item item knows agrees.left line stmt index _
      rw [List.flatMap_cons, parts, scanned]
      exact ih knows' agrees line' stmt' index'

end DawnC
