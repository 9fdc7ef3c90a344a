import DawnC.Proofs.DeclaredNames
import DawnC.Proofs.Program.Reading

set_option autoImplicit false

namespace DawnC

namespace SymbolTable

variable {table table' : SymbolTable} {list : List (String × SymbolClass)} {name : String}
  {cls : SymbolClass}

/-- The class of a name in the table with the names of a list added. -/
def getWith (table : SymbolTable) (list : List (String × SymbolClass)) (name : String) :
    Option SymbolClass := (table.get? name).or (list.lookup name)

/-- With the names before it added, the table holds no name of the list in another class. -/
def Admits (table : SymbolTable) (list : List (String × SymbolClass)) : Prop :=
  ∀ before name cls after, list = before ++ (name, cls) :: after →
    ∀ old, table.getWith before name = some old → old = cls

inductive DeclaresAll : SymbolTable → List (String × SymbolClass) → SymbolTable → Prop where
  | nil {table : SymbolTable} : DeclaresAll table [] table
  | cons {table next last : SymbolTable} {name : String} {cls : SymbolClass}
      {list : List (String × SymbolClass)} (declared : table.declare name cls = .ok next)
      (later : DeclaresAll next list last) : DeclaresAll table ((name, cls) :: list) last

theorem getWith_nil : table.getWith [] name = table.get? name := by
  simp [getWith]

theorem getWith_cons (declared : table.declare name cls = .ok table') (other : String) :
    table.getWith ((name, cls) :: list) other = table'.getWith list other := by
  have old : ∀ old, table.get? name = some old → old = cls := declare_isOk.mp ⟨_, declared⟩
  rw [getWith, getWith, get?_declare declared]
  by_cases here : other = name
  · subst here
    rw [if_pos rfl, List.lookup_cons_self, Option.some_or]
    cases found : table.get? other with
    | none => rfl
    | some cls' => rw [old cls' found, Option.some_or]
  · have apart : (other == name) = false := by simpa using here
    rw [if_neg here, List.lookup_cons, apart]

/-- The table has just the names of the list more, in their classes. -/
theorem DeclaresAll.get?_eq_some (all : DeclaresAll table list table') :
    table'.get? name = some cls ↔ table.get? name = some cls ∨ (name, cls) ∈ list := by
  induction all with
  | nil => simp
  | cons declared later ih =>
      rw [ih, get?_declare_iff declared, List.mem_singleton, List.mem_cons, or_assoc]

theorem admits_cons (declared : table.declare name cls = .ok table') :
    table.Admits ((name, cls) :: list) ↔ table'.Admits list := by
  constructor
  · rintro admits before other cls' after rfl old found
    rw [← getWith_cons declared] at found
    exact admits ((name, cls) :: before) other cls' after rfl old found
  · intro admits before other cls' after split old found
    cases before with
    | nil =>
        cases split
        rw [getWith_nil] at found
        exact declare_isOk.mp ⟨_, declared⟩ old found
    | cons first before =>
        cases split
        rw [getWith_cons declared] at found
        exact admits before other cls' after rfl old found

/-- The names of a list can be declared exactly if the table admits them. -/
theorem exists_declaresAll : (∃ table', DeclaresAll table list table') ↔ table.Admits list := by
  induction list generalizing table with
  | nil =>
      refine ⟨fun _ before name cls after split => ?_, fun _ => ⟨table, .nil⟩⟩
      exact absurd split (by simp)
  | cons entry list ih =>
      obtain ⟨name, cls⟩ := entry
      constructor
      · rintro ⟨last, all⟩
        cases all with
        | cons declared later => exact (admits_cons declared).mpr (ih.mp ⟨last, later⟩)
      · intro admits
        obtain ⟨next, declared⟩ := declare_isOk.mpr fun old found =>
          admits [] name cls list rfl old (getWith_nil.trans found)
        obtain ⟨last, later⟩ := ih.mpr ((admits_cons declared).mp admits)
        exact ⟨last, .cons declared later⟩

end SymbolTable

def Atom.IsType (a : Atom) (cls : SymbolClass) : Prop :=
  a.IsWord "int" ∧ cls = .int ∨ a.IsWord "string" ∧ cls = .string

/-- The parameters and the span that they are written as, up to its closing parenthesis. -/
inductive ParameterList : List (String × SymbolClass) → List Atom → Prop where
  | none {close : Atom} (closes : close.is ")" = true) : ParameterList [] [close]
  | last {type name close : Atom} {cls : SymbolClass} (isType : type.IsType cls) (isName : name.IsName)
      (closes : close.is ")" = true) : ParameterList [(name.text, cls)] [type, name, close]
  | more {type name comma : Atom} {cls : SymbolClass} {list : List (String × SymbolClass)}
      {span : List Atom} (isType : type.IsType cls) (isName : name.IsName)
      (parts : comma.is "," = true) (follows : list ≠ []) (later : ParameterList list span) :
      ParameterList ((name.text, cls) :: list) (type :: name :: comma :: span)

theorem parameterClass?_eq_some {a : Atom} {cls : SymbolClass} :
    parameterClass? a = some cls ↔ a.IsType cls := by
  rw [parameterClass?, Atom.IsType, Atom.IsWord, Atom.IsWord]
  by_cases word : a.kind = .word
  · by_cases int : a.text = "int"
    · simp [word, int, eq_comm]
    · by_cases string : a.text = "string"
      · simp [word, string, eq_comm]
      · simp [word, int, string]
  · simp [word]

theorem Atom.IsType.is_close {a : Atom} {cls : SymbolClass} (isType : a.IsType cls) :
    a.is ")" = false := by
  rcases isType with ⟨word, -⟩ | ⟨word, -⟩
  · exact is_of_is word.is (by decide)
  · exact is_of_is word.is (by decide)

section States

variable {symbols : SymbolTable} {texts : List String} {taken index : Nat} {atoms : List Atom}
  {cls : SymbolClass} {params : Parameters}

theorem parametersFrom_name :
    parametersFrom symbols texts taken index (.name cls) atoms = .ok params ↔
      ∃ name rest symbols', atoms = name :: rest ∧ name.IsName ∧
        symbols.declare name.text cls = .ok symbols' ∧
        parametersFrom symbols' (declarator cls name.text :: texts) (taken + 1) (index + 1) .separator
          rest = .ok params := by
  cases atoms with
  | nil => simp [parametersFrom]
  | cons name rest =>
      rw [parametersFrom]
      by_cases isName : (name.kind = .word && isIdentifier name.text) = true
      · have valid : name.IsName := by simpa [Atom.IsName] using isName
        rw [if_pos isName]
        cases declared : symbols.declare name.text cls with
        | ok symbols' => simp [valid, declared]
        | error v => simp [declared]
      · have invalid : ¬ name.IsName := by simpa [Atom.IsName] using isName
        simp [isName, invalid]

theorem parametersFrom_type :
    parametersFrom symbols texts taken index .type atoms = .ok params ↔
      ∃ type rest cls, atoms = type :: rest ∧ type.IsType cls ∧
        parametersFrom symbols texts (taken + 1) (index + 1) (.name cls) rest = .ok params := by
  cases atoms with
  | nil => simp [parametersFrom]
  | cons type rest =>
      simp only [← parameterClass?_eq_some]
      rw [parametersFrom]
      cases isType : parameterClass? type with
      | some cls => simp [isType]
      | none => simp [isType]

theorem parametersFrom_separator :
    parametersFrom symbols texts taken index .separator atoms = .ok params ↔
      ∃ a rest, atoms = a :: rest ∧
        (a.is ")" = true ∧ params = ⟨texts.reverse, taken + 1, symbols⟩ ∨ a.is "," = true ∧
          parametersFrom symbols texts (taken + 1) (index + 1) .type rest = .ok params) := by
  cases atoms with
  | nil => simp [parametersFrom]
  | cons a rest =>
      rw [parametersFrom]
      by_cases closes : a.is ")" = true
      · have noComma : a.is "," = false := is_of_is closes (by decide)
        simpa [closes, noComma] using eq_comm
      · by_cases parts : a.is "," = true
        · simp [closes, parts]
        · simp [closes, parts]

theorem parametersFrom_start :
    parametersFrom symbols texts taken index .start atoms = .ok params ↔
      (∃ a rest, atoms = a :: rest ∧ a.is ")" = true ∧
        params = ⟨texts.reverse, taken + 1, symbols⟩) ∨
      parametersFrom symbols texts taken index .type atoms = .ok params := by
  cases atoms with
  | nil => simp [parametersFrom]
  | cons a rest =>
      rw [parametersFrom, parametersFrom]
      by_cases closes : a.is ")" = true
      · have noType : parameterClass? a = none := by
          rw [Option.eq_none_iff_forall_ne_some]
          intro cls found
          rw [(parameterClass?_eq_some.mp found).is_close] at closes
          cases closes
        simpa [closes, noType] using eq_comm
      · simp [closes]

end States

variable {symbols symbols' : SymbolTable} {list : List (String × SymbolClass)} {span atoms : List Atom}
  {texts : List String} {taken index : Nat} {params : Parameters}

/-- What is read from a type on is a list of parameters, and its names are declared. -/
theorem parametersFrom_sound
    (success : parametersFrom symbols texts taken index .type atoms = .ok params) :
    ∃ list span, list ≠ [] ∧ ParameterList list span ∧ span <+: atoms ∧
      symbols.DeclaresAll list params.symbols ∧ params.texts = texts.reverse ++ list.map parameterText ∧
      params.taken = taken + span.length := by
  induction size : atoms.length using Nat.strongRecOn
    generalizing atoms symbols texts taken index with
  | ind size ih =>
    obtain ⟨type, rest, cls, rfl, isType, success⟩ := parametersFrom_type.mp success
    obtain ⟨name, rest, symbols', rfl, isName, declared, success⟩ := parametersFrom_name.mp success
    obtain ⟨a, rest, rfl, ⟨closes, rfl⟩ | ⟨parts, success⟩⟩ := parametersFrom_separator.mp success
    · exact ⟨[(name.text, cls)], [type, name, a], by simp, .last isType isName closes, by simp,
        .cons declared .nil, by simp [parameterText], rfl⟩
    · obtain ⟨list, span, filled, valid, here, all, written, count⟩ :=
        ih rest.length (by simp only [List.length_cons] at size; omega) success rfl
      refine ⟨(name.text, cls) :: list, type :: name :: a :: span, by simp,
        .more isType isName parts filled valid, by simpa using here, .cons declared all, ?_, ?_⟩
      · simp [written, parameterText]
      · simp only [count, List.length_cons]
        omega

/-- A list of parameters whose names are declared is read. -/
theorem parametersFrom_complete (valid : ParameterList list span) (filled : list ≠ [])
    (all : symbols.DeclaresAll list symbols') (texts : List String) (taken index : Nat)
    (rest : List Atom) :
    parametersFrom symbols texts taken index .type (span ++ rest) =
      .ok ⟨texts.reverse ++ list.map parameterText, taken + span.length, symbols'⟩ := by
  induction valid generalizing symbols texts taken index with
  | none closes => exact absurd rfl filled
  | last isType isName closes =>
      cases all with
      | cons declared later =>
          cases later
          refine parametersFrom_type.mpr ⟨_, _, _, rfl, isType, parametersFrom_name.mpr
            ⟨_, _, _, rfl, isName, declared, parametersFrom_separator.mpr
              ⟨_, _, rfl, Or.inl ⟨closes, ?_⟩⟩⟩⟩
          simp [parameterText]
  | more isType isName parts follows later ih =>
      cases all with
      | cons declared all =>
          refine parametersFrom_type.mpr ⟨_, _, _, rfl, isType, parametersFrom_name.mpr
            ⟨_, _, _, rfl, isName, declared, parametersFrom_separator.mpr
              ⟨_, _, rfl, Or.inr ⟨parts, ?_⟩⟩⟩⟩
          refine (ih follows all _ _ _).trans ?_
          simp only [List.reverse_cons, List.append_assoc, List.singleton_append, List.map_cons,
            List.length_cons, parameterText, Except.ok.injEq, Parameters.mk.injEq, true_and, and_true]
          omega

/-- Reading succeeds on exactly the lists of parameters whose names can be declared. -/
theorem parameters_eq_ok :
    parameters symbols index atoms = .ok params ↔
      ∃ list span, ParameterList list span ∧ span <+: atoms ∧
        symbols.DeclaresAll list params.symbols ∧ params.texts = list.map parameterText ∧
        params.taken = span.length := by
  rw [parameters, parametersFrom_start]
  constructor
  · rintro (⟨a, rest, rfl, closes, rfl⟩ | success)
    · exact ⟨[], [a], .none closes, by simp, .nil, rfl, rfl⟩
    · obtain ⟨list, span, -, valid, here, all, written, count⟩ := parametersFrom_sound success
      exact ⟨list, span, valid, here, all, by simpa using written, by simpa using count⟩
  · rintro ⟨list, span, valid, ⟨rest, rfl⟩, all, written, count⟩
    obtain ⟨texts, taken, symbols'⟩ := params
    dsimp only at all written count
    cases list with
    | nil =>
        cases valid with
        | none closes =>
            cases all
            exact Or.inl ⟨_, rest, rfl, closes, by rw [written, count]; rfl⟩
    | cons entry list =>
        right
        rw [parametersFrom_complete valid (List.cons_ne_nil _ _) all, written, count]
        simp

/-- Parameters are read by exactly their grammar. From any index of a program on and with any table,
reading succeeds if and only if a list of parameters stands there that the table admits. It gives the
text of each parameter, the number of atoms, and a table with just these names more. -/
theorem parameters_follow_grammar (program : List Atom) (i : Nat) (symbols : SymbolTable) :
    ((∃ params, parameters symbols i (program.drop i) = .ok params) ↔
      ∃ list span, ParameterList list span ∧ span <+: program.drop i ∧ symbols.Admits list) ∧
    ∀ list span, ParameterList list span → span <+: program.drop i → symbols.Admits list →
      ∃ params, parameters symbols i (program.drop i) = .ok params ∧
        params.texts = list.map parameterText ∧ params.taken = span.length ∧
        ∀ name cls, params.symbols.get? name = some cls ↔
          symbols.get? name = some cls ∨ (name, cls) ∈ list := by
  have reads (list : List (String × SymbolClass)) (span : List Atom) (valid : ParameterList list span)
      (here : span <+: program.drop i) (admits : symbols.Admits list) :
      ∃ params, parameters symbols i (program.drop i) = .ok params ∧
        params.texts = list.map parameterText ∧ params.taken = span.length ∧
        ∀ name cls, params.symbols.get? name = some cls ↔
          symbols.get? name = some cls ∨ (name, cls) ∈ list := by
    obtain ⟨symbols', all⟩ := SymbolTable.exists_declaresAll.mpr admits
    exact ⟨⟨list.map parameterText, span.length, symbols'⟩,
      parameters_eq_ok.mpr ⟨list, span, valid, here, all, rfl, rfl⟩, rfl, rfl,
      fun _ _ => all.get?_eq_some⟩
  refine ⟨⟨?_, ?_⟩, reads⟩
  · rintro ⟨params, success⟩
    obtain ⟨list, span, valid, here, all, -⟩ := parameters_eq_ok.mp success
    exact ⟨list, span, valid, here, SymbolTable.exists_declaresAll.mp ⟨_, all⟩⟩
  · rintro ⟨list, span, valid, here, admits⟩
    obtain ⟨params, success, -⟩ := reads list span valid here admits
    exact ⟨params, success⟩

/-- A name that is in the table already, and that comes twice. -/
theorem parameters_follow_grammar_repeated :
    let word (text : String) : Atom := ⟨text, .word, "a.dawn", 1, 0⟩
    let mark (text : String) : Atom := ⟨text, .punct, "a.dawn", 1, 0⟩
    let program := [word "function", word "f", word "int", word "a", mark ",", word "string", word "b",
      mark ",", word "int", word "a", mark ")", mark ")"]
    let list : List (String × SymbolClass) := [("a", .int), ("b", .string), ("a", .int)]
    let symbols : SymbolTable := .ofList [("a", .int)]
    ParameterList list ((program.drop 2).take 9) ∧ symbols.Admits list ∧
      ∃ params, parameters symbols 2 (program.drop 2) = .ok params ∧
        params.texts = ["int a", "char b[]", "int a"] ∧ params.taken = 9 ∧
        params.symbols.get? "b" = some .string := by
  intro word mark program list symbols
  have int : (word "int").IsType .int := Or.inl ⟨⟨rfl, rfl⟩, rfl⟩
  have string : (word "string").IsType .string := Or.inr ⟨⟨rfl, rfl⟩, rfl⟩
  have a : (word "a").IsName := ⟨rfl, show isIdentifier "a" = true by decide⟩
  have b : (word "b").IsName := ⟨rfl, show isIdentifier "b" = true by decide⟩
  have comma : (mark ",").is "," = true := rfl
  have close : (mark ")").is ")" = true := rfl
  have valid : ParameterList list ((program.drop 2).take 9) :=
    .more int a comma (List.cons_ne_nil _ _)
      (.more string b comma (List.cons_ne_nil _ _) (.last int a close))
  have admits : symbols.Admits list :=
    SymbolTable.exists_declaresAll.mp ⟨_, .cons rfl (.cons rfl (.cons rfl .nil))⟩
  obtain ⟨params, success, texts, taken, table⟩ :=
    (parameters_follow_grammar program 2 symbols).2 list _ valid (List.take_prefix _ _) admits
  exact ⟨valid, admits, params, success, texts.trans (by decide), taken.trans (by decide),
    (table _ _).mpr (Or.inr (by decide))⟩

end DawnC
