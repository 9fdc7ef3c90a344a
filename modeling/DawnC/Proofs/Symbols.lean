import DawnC.Analysis
import DawnC.Translator.Expression

set_option autoImplicit false

namespace DawnC

namespace SymbolTable

variable {table table' : SymbolTable} {name other : String} {cls : SymbolClass}

/-- The table of these names, if none of them stands there twice. -/
def ofList (entries : List (String × SymbolClass)) : SymbolTable :=
  if distinct : (entries.map (·.1)).Nodup then ⟨entries, distinct⟩ else empty

/-- The table right after a declaration. -/
theorem get?_declare (success : table.declare name cls = .ok table') :
    table'.get? other = if other = name then some cls else table.get? other := by
  simp only [declare] at success
  split at success
  · rename_i old found
    split at success
    · rename_i same
      cases success
      split
      · rename_i here
        rw [here, found, same]
      · rfl
    · cases success
  · rename_i absent
    cases success
    simp only [get?] at absent ⊢
    by_cases here : other = name
    · subst here
      simp [List.lookup_append, absent]
    · have apart : (other == name) = false := by simpa using here
      simp [List.lookup_append, apart, here, List.lookup_cons]

/-- Declaring a name fails exactly if it is there in another class. -/
theorem declare_isOk :
    (∃ table', table.declare name cls = .ok table') ↔
      ∀ old, table.get? name = some old → old = cls := by
  rw [declare]
  split
  · rename_i old found
    by_cases same : old = cls
    · simp [found, same]
    · simp [found, same]
  · rename_i absent
    simp [absent]

theorem classOf_eq {name : String} {cls : SymbolClass} (known : cls ≠ .unknown) :
    table.classOf name = cls ↔ table.get? name = some cls := by
  simp only [classOf]
  cases table.get? name with
  | none => simpa using known.symm
  | some old => simp

/-- `new` has all that `old` has, and what was added satisfies `P`. -/
structure Grows (P : String → SymbolClass → Prop) (old new : SymbolTable) : Prop where
  keeps : ∀ name cls, old.get? name = some cls → new.get? name = some cls
  adds : ∀ name cls, new.get? name = some cls → old.get? name = some cls ∨ P name cls

variable {P : String → SymbolClass → Prop}

theorem Grows.refl (table : SymbolTable) : Grows P table table :=
  ⟨fun _ _ found => found, fun _ _ found => Or.inl found⟩

theorem Grows.trans {first second third : SymbolTable} (before : Grows P first second)
    (after : Grows P second third) : Grows P first third := by
  refine ⟨fun name cls found => after.keeps name cls (before.keeps name cls found), ?_⟩
  intro name cls found
  rcases after.adds name cls found with kept | added
  · exact before.adds name cls kept
  · exact Or.inr added

theorem Grows.of_declare (success : table.declare name cls = .ok table') (added : P name cls) :
    Grows P table table' := by
  constructor
  · intro other old found
    rw [get?_declare success]
    split
    · rename_i here
      subst here
      rw [declare_isOk.mp ⟨_, success⟩ old found]
    · exact found
  · intro other new found
    rw [get?_declare success] at found
    split at found
    · rename_i here
      cases found
      exact Or.inr (here ▸ added)
    · exact Or.inl found

end SymbolTable

def IsVariableName (name : String) (cls : SymbolClass) : Prop :=
  isIdentifier name = true ∧ cls.isVariable = true

theorem parameterClass?_isVariable {a : Atom} {cls : SymbolClass}
    (found : parameterClass? a = some cls) : cls.isVariable = true := by
  simp only [parameterClass?] at found
  split at found
  · cases found
  · split at found
    · cases found
      rfl
    · split at found
      · cases found
        rfl
      · cases found

/-- The states of a parameter list name variables only. -/
def ParameterState.Variable : ParameterState → Prop
  | .name cls => cls.isVariable = true
  | _ => True

theorem parametersFrom_grows {symbols : SymbolTable} {texts : List String} {taken index : Nat}
    {state : ParameterState} {atoms : List Atom} {params : Parameters}
    (success : parametersFrom symbols texts taken index state atoms = .ok params)
    (named : state.Variable) :
    symbols.Grows IsVariableName params.symbols := by
  induction atoms generalizing symbols texts taken index state with
  | nil => simp [parametersFrom] at success
  | cons a rest ih =>
      cases state with
      | name cls =>
          simp only [parametersFrom] at success
          split at success
          · rename_i isName
            simp only [Bool.and_eq_true] at isName
            split at success
            · rename_i symbols' declared
              exact (SymbolTable.Grows.of_declare declared ⟨isName.2, named⟩).trans
                (ih success trivial)
            · cases success
          · cases success
      | separator =>
          simp only [parametersFrom] at success
          split at success
          · cases success
            exact .refl _
          · split at success
            · exact ih success trivial
            · cases success
      | start =>
          simp only [parametersFrom] at success
          split at success
          · cases success
            exact .refl _
          · split at success
            · rename_i cls found
              exact ih success (parameterClass?_isVariable found)
            · cases success
      | type =>
          simp only [parametersFrom] at success
          split at success
          · rename_i cls found
            exact ih success (parameterClass?_isVariable found)
          · cases success

/-- The scan for functions adds functions only. -/
theorem declareFunctions_grows {table table' : SymbolTable} {index : Nat} {atoms : List Atom}
    (success : declareFunctions table index atoms = .ok table') :
    table.Grows (fun _ cls => cls = .function) table' := by
  induction atoms generalizing table index with
  | nil =>
      cases success
      exact .refl _
  | cons a rest ih =>
      simp only [declareFunctions] at success
      split at success
      · exact ih success
      · split at success
        · cases success
        · split at success
          · cases success
          · split at success
            · exact ih success
            · split at success
              · cases success
              · rename_i declared
                exact (SymbolTable.Grows.of_declare declared rfl).trans (ih success)

end DawnC
