import DawnC.Proofs.Program.Reading
import DawnC.Proofs.Program.Writing

set_option autoImplicit false

namespace DawnC

/-- The declarations keep to one class for each name. -/
def Agrees (classes : String → SymbolClass) (known : Declarations) : Prop :=
  ∀ entry ∈ known, classes entry.1 = entry.2

theorem Agrees.left {classes : String → SymbolClass} {first second : Declarations}
    (agrees : Agrees classes (first ++ second)) : Agrees classes first :=
  fun entry member => agrees entry (List.mem_append_left _ member)

/-- The table holds these declarations and no others. -/
def SymbolTable.Knows (table : SymbolTable) (known : Declarations) : Prop :=
  ∀ name cls, table.get? name = some cls ↔ (name, cls) ∈ known

namespace SymbolTable.Knows

variable {table : SymbolTable} {known : Declarations} {name : String} {cls : SymbolClass}

theorem classOf (knows : table.Knows known) (member : (name, cls) ∈ known) :
    table.classOf name = cls := by
  rw [SymbolTable.classOf, (knows name cls).mpr member, Option.getD_some]

theorem declare {classes : String → SymbolClass} (knows : table.Knows known)
    (agrees : Agrees classes (known ++ [(name, cls)])) :
    ∃ after, table.declare name cls = .ok after ∧ after.Knows (known ++ [(name, cls)]) := by
  have here : classes name = cls :=
    agrees (name, cls) (List.mem_append_right _ List.mem_cons_self)
  cases old : table.get? name with
  | some cls' =>
      have member := (knows name cls').mp old
      have same : classes name = cls' := agrees (name, cls') (List.mem_append_left _ member)
      cases here.symm.trans same
      refine ⟨table, declare_same old, fun other cls' => (knows other cls').trans ?_⟩
      constructor
      · exact fun found => List.mem_append_left _ found
      · intro found
        rcases List.mem_append.mp found with earlier | added
        · exact earlier
        · cases List.mem_singleton.mp added
          exact member
  | none =>
      obtain ⟨after, declared⟩ : ∃ after, table.declare name cls = .ok after :=
        SymbolTable.declare_isOk.mpr (by simp [old])
      refine ⟨after, declared, fun other cls' => ?_⟩
      rw [get?_declare declared]
      by_cases same : other = name
      · subst same
        rw [if_pos rfl, Option.some.injEq, List.mem_append, List.mem_singleton]
        constructor
        · rintro rfl
          exact Or.inr rfl
        · rintro (earlier | added)
          · rw [(knows other cls').mpr earlier] at old
            cases old
          · cases added
            rfl
      · rw [if_neg same, knows other cls', List.mem_append, List.mem_singleton]
        constructor
        · exact Or.inl
        · rintro (earlier | added)
          · exact earlier
          · cases added
            exact absurd rfl same

end SymbolTable.Knows

theorem declarator_eq {cls : SymbolClass} (scalar : cls ∈ [SymbolClass.int, .bool, .string])
    (name : String) : declarator cls name = cDeclaration cls name := by
  simp only [List.mem_cons, List.not_mem_nil, or_false] at scalar
  rcases scalar with rfl | rfl | rfl <;> rfl

/-- A name is resolved where it is known. -/
theorem unresolvedArgument?_eq_none {symbols : SymbolTable} {args : List String}
    (resolved : ∀ arg ∈ args, isIdentifier arg = true →
      symbols.isVariable arg = true ∨ arg = "true" ∨ arg = "false") (position : Nat) :
    Translator.unresolvedArgument? symbols position args = none := by
  induction args generalizing position with
  | nil => rfl
  | cons arg rest ih =>
      have here : ¬ (isIdentifier arg && !symbols.isVariable arg && arg ≠ "true" && arg ≠ "false") =
          true := by
        simp only [Bool.and_eq_true, decide_eq_true_eq, Bool.not_eq_true']
        rintro ⟨⟨⟨identifier, unknown⟩, notTrue⟩, notFalse⟩
        rcases resolved arg List.mem_cons_self identifier with known | isTrue | isFalse
        · rw [known] at unknown
          cases unknown
        · exact notTrue isTrue
        · exact notFalse isFalse
      rw [Translator.unresolvedArgument?, if_neg here]
      exact ih (fun arg member => resolved arg (List.mem_cons_of_mem _ member)) _

theorem Phrase.resolved {stops : List Char} {phrase : Phrase stops} {known : Declarations}
    {symbols : SymbolTable} (knows : symbols.Knows known) (isKnown : phrase.isKnown known = true)
    (identifier : isIdentifier phrase.text = true) :
    symbols.isVariable phrase.text = true ∨ phrase.text = "true" ∨ phrase.text = "false" := by
  simp only [Phrase.isKnown, Bool.or_eq_true, Bool.not_eq_true', decide_eq_true_eq,
    List.any_eq_true, Bool.and_eq_true] at isKnown
  rcases isKnown with ((other | isTrue) | isFalse) | ⟨entry, member, same, isVariable⟩
  · rw [identifier] at other
    cases other
  · exact Or.inr (Or.inl isTrue)
  · exact Or.inr (Or.inr isFalse)
  · refine Or.inl ?_
    have found : symbols.classOf phrase.text = entry.2 := knows.classOf (same ▸ member)
    rw [SymbolTable.isVariable, found, isVariable]

def wordAtom (file : String) (line stmt : Int) (text : String) : Atom :=
  ⟨text, .word, file, line, stmt⟩

variable {file : String} {line stmt : Int}

theorem tokenAtom_word {text : String} (word : isWordText text = true) :
    tokenAtom file line stmt (.run text) = wordAtom file line stmt text := by
  rw [tokenAtom, kindOf_of_isWordText word, wordAtom]

theorem wordAtom_isWord (text : String) : (wordAtom file line stmt text).IsWord text := ⟨rfl, rfl⟩

theorem wordAtom_is (text : String) : (wordAtom file line stmt text).is text = true :=
  (wordAtom_isWord text).is

theorem Name.isName (name : Name) : (wordAtom file line stmt name.text).IsName :=
  ⟨rfl, name.isIdentifier⟩

theorem Bound.isBound {bound : Bound} {known : Declarations} {symbols : SymbolTable}
    (knows : symbols.Knows known) (isKnown : bound.isKnown known = true) :
    (wordAtom file line stmt bound.text).IsBound symbols := by
  cases bound with
  | literal text integer => exact ⟨rfl, Or.inl integer⟩
  | name name =>
      simp only [Bound.isKnown, decide_eq_true_eq] at isKnown
      exact ⟨rfl, Or.inr (knows.classOf isKnown)⟩

def Parameter.atoms (file : String) (line stmt : Int) (parameter : Parameter) : List Atom :=
  [wordAtom file line stmt parameter.cls.name, wordAtom file line stmt parameter.name.text]

def Parameter.declared (parameter : Parameter) : String × SymbolClass :=
  (parameter.name.text, parameter.cls)

theorem Parameter.cls_cases (parameter : Parameter) :
    parameter.cls = .int ∨ parameter.cls = .string := by
  unfold Parameter.cls
  split
  · exact Or.inr rfl
  · exact Or.inl rfl

theorem Parameter.parameterClass? (parameter : Parameter) :
    parameterClass? (wordAtom file line stmt parameter.cls.name) = some parameter.cls := by
  rcases parameter.cls_cases with isInt | isString
  · rw [isInt]
    rfl
  · rw [isString]
    rfl

theorem Parameter.pieceAtoms_pieces (parameter : Parameter) :
    pieceAtoms file line stmt parameter.pieces = parameter.atoms file line stmt := by
  have type : Scanner.kindOf parameter.cls.name.toList = .word := by
    rcases parameter.cls_cases with isInt | isString
    · rw [isInt]
      decide
    · rw [isString]
      decide
  have name := kindOf_of_isWordText parameter.name.isWordText
  simp only [Parameter.pieces, pieceAtoms, type, name]
  rfl

theorem parametersFrom_parameter {parameter : Parameter} {symbols after : SymbolTable}
    (declared : symbols.declare parameter.name.text parameter.cls = .ok after)
    (texts : List String) (taken index : Nat) (tail : List Atom) :
    parametersFrom symbols texts taken index .type (parameter.atoms file line stmt ++ tail) =
      parametersFrom after (cDeclaration parameter.cls parameter.name.text :: texts) (taken + 2)
        (index + 2) .separator tail := by
  have scalar : parameter.cls ∈ [SymbolClass.int, .bool, .string] := by
    rcases parameter.cls_cases with isInt | isString
    · rw [isInt]
      decide
    · rw [isString]
      decide
  have named : ((wordAtom file line stmt parameter.name.text).kind = .word &&
      isIdentifier (wordAtom file line stmt parameter.name.text).text) = true := by
    rw [wordAtom, parameter.name.isIdentifier]
    rfl
  rw [Parameter.atoms, List.cons_append, List.singleton_append, parametersFrom]
  simp only [parameter.parameterClass?]
  rw [parametersFrom, if_pos named]
  simp only [show (wordAtom file line stmt parameter.name.text).text = parameter.name.text from rfl,
    declared]
  rw [declarator_eq scalar]

/-- A parameter list is read parameter by parameter, and each name is declared. -/
theorem parametersFrom_intercalate (file : String) (line stmt : Int)
    {classes : String → SymbolClass} {comma close : Atom} (isComma : comma.is "," = true)
    (isClose : close.is ")" = true) (rest : List Atom)
    (first : Parameter) (others : List Parameter) {symbols : SymbolTable} {known : Declarations}
    (knows : symbols.Knows known)
    (agrees : Agrees classes (known ++ (first :: others).map Parameter.declared))
    (texts : List String) (taken index : Nat) :
    ∃ params, parametersFrom symbols texts taken index .type
        ([comma].intercalate ((first :: others).map (Parameter.atoms file line stmt)) ++
          close :: rest) = .ok params ∧
      params.texts = texts.reverse ++
        (first :: others).map (fun p => cDeclaration p.cls p.name.text) ∧
      params.taken = taken +
        ([comma].intercalate ((first :: others).map (Parameter.atoms file line stmt))).length + 1 ∧
      params.symbols.Knows (known ++ (first :: others).map Parameter.declared) := by
  induction others generalizing first symbols known texts taken index with
  | nil =>
      obtain ⟨after, declared, knows'⟩ := knows.declare agrees
      rw [List.map_singleton, List.intercalate_singleton, parametersFrom_parameter declared,
        parametersFrom, if_pos isClose]
      exact ⟨_, rfl, by simp, by simp [Parameter.atoms], knows'⟩
  | cons next others ih =>
      rw [List.map_cons, ← List.singleton_append, ← List.append_assoc] at agrees
      obtain ⟨after, declared, knows'⟩ := knows.declare agrees.left
      obtain ⟨params, read, texts', taken', known'⟩ :=
        ih next knows' agrees (cDeclaration first.cls first.name.text :: texts) (taken + 2 + 1)
          (index + 2 + 1)
      have notClose := is_of_is isComma (show "," ≠ ")" by decide)
      refine ⟨params, ?_, ?_, ?_, ?_⟩
      · simp only [List.map_cons, List.intercalate_cons_cons, List.append_assoc]
        rw [parametersFrom_parameter declared, List.singleton_append, parametersFrom, notClose,
          if_neg Bool.false_ne_true, if_pos isComma]
        exact read
      · rw [texts', List.reverse_cons, List.append_assoc, List.singleton_append]
        rfl
      · rw [taken']
        simp only [List.map_cons, List.intercalate_cons_cons, List.length_append, Parameter.atoms,
          List.length_cons, List.length_nil]
        omega
      · rw [List.append_assoc, List.singleton_append] at known'
        exact known'

theorem parameters_intercalate (file : String) (line stmt : Int)
    {classes : String → SymbolClass} {comma close : Atom} (isComma : comma.is "," = true)
    (isClose : close.is ")" = true) (rest : List Atom) (list : List Parameter)
    {symbols : SymbolTable} {known : Declarations}
    (knows : symbols.Knows known) (agrees : Agrees classes (known ++ list.map Parameter.declared))
    (index : Nat) :
    ∃ params, parameters symbols index
        ([comma].intercalate (list.map (Parameter.atoms file line stmt)) ++ close :: rest) =
          .ok params ∧
      params.texts = list.map (fun p => cDeclaration p.cls p.name.text) ∧
      params.taken =
        ([comma].intercalate (list.map (Parameter.atoms file line stmt))).length + 1 ∧
      params.symbols.Knows (known ++ list.map Parameter.declared) := by
  cases list with
  | nil =>
      refine ⟨⟨[], 1, symbols⟩, ?_, rfl, rfl, ?_⟩
      · simp [parameters, parametersFrom, isClose]
      · simpa using knows
  | cons first others =>
      obtain ⟨params, read, texts, taken, known'⟩ :=
        parametersFrom_intercalate file line stmt isComma isClose rest first others knows agrees []
          0 index
      refine ⟨params, ?_, by simpa using texts, by simpa using taken, known'⟩
      have notClose : (wordAtom file line stmt first.cls.name).is ")" = false := by
        refine Atom.is_eq_false ?_
        rcases first.cls_cases with isInt | isString
        · exact isInt ▸ (by decide : SymbolClass.int.name ≠ ")")
        · exact isString ▸ (by decide : SymbolClass.string.name ≠ ")")
      obtain ⟨tail, shape⟩ : ∃ tail, [comma].intercalate
          ((first :: others).map (Parameter.atoms file line stmt)) =
            wordAtom file line stmt first.cls.name :: tail := by
        cases others with
        | nil => exact ⟨_, rfl⟩
        | cons next others =>
            rw [List.map_cons, List.map_cons, List.intercalate_cons_cons]
            exact ⟨_, rfl⟩
      rw [shape, List.cons_append, parametersFrom] at read
      rw [shape, List.cons_append, parameters, parametersFrom, notClose, if_neg Bool.false_ne_true]
      exact read

end DawnC
