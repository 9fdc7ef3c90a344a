import DawnC.Fault.Violation

set_option autoImplicit false

namespace DawnC

/-- Declared names with their classes, in the order of declaration. -/
structure SymbolTable where
  entries : List (String × SymbolClass) := []
  /-- a name stands in it once -/
  distinct : (entries.map (·.1)).Nodup := by first | exact List.nodup_nil | decide
  deriving DecidableEq, Repr

namespace SymbolTable

def empty : SymbolTable := {}

/-- The class that `name` was declared in. -/
def get? (table : SymbolTable) (name : String) : Option SymbolClass :=
  table.entries.lookup name

/-- The class of `name`, `unknown` if it was never declared. -/
def classOf (table : SymbolTable) (name : String) : SymbolClass :=
  (table.get? name).getD .unknown

theorem get?_eq_none {table : SymbolTable} {name : String} :
    table.get? name = none ↔ name ∉ table.entries.map (·.1) := by
  rw [get?, List.lookup_eq_none_iff, List.mem_map]
  constructor
  · rintro absent ⟨entry, member, rfl⟩
    exact bne_iff_ne.mp (absent entry member) rfl
  · intro absent entry member
    exact bne_iff_ne.mpr fun same => absent ⟨entry, member, same.symm⟩

theorem distinct_append {table : SymbolTable} {name : String} (absent : table.get? name = none)
    (cls : SymbolClass) : ((table.entries ++ [(name, cls)]).map (·.1)).Nodup := by
  rw [List.map_append, List.nodup_append]
  refine ⟨table.distinct, List.pairwise_singleton _ _, ?_⟩
  intro other old new isNew same
  rw [List.map_singleton, List.mem_singleton] at isNew
  rw [same, isNew] at old
  exact get?_eq_none.mp absent old

/-- Adds `name` to `cls`. Declaring a name again in its own class changes nothing. -/
def declare (table : SymbolTable) (name : String) (cls : SymbolClass) :
    Except Violation SymbolTable :=
  match found : table.get? name with
  | some old => if old = cls then .ok table else .error (.redeclared name old cls)
  | none => .ok ⟨table.entries ++ [(name, cls)], distinct_append found cls⟩

/-- `name` has the class of a variable. -/
def isVariable (table : SymbolTable) (name : String) : Bool :=
  (table.classOf name).isVariable

/-- The names declared in `cls`, sorted. -/
def names (table : SymbolTable) (cls : SymbolClass) : List String :=
  ((table.entries.filter (·.2 = cls)).map (·.1)).mergeSort (fun a b => decide (a ≤ b))

theorem get?_empty (name : String) : empty.get? name = none := rfl

theorem declare_same {table : SymbolTable} {name : String} {cls : SymbolClass}
    (declared : table.get? name = some cls) : table.declare name cls = .ok table := by
  rw [declare]
  split
  · rename_i old found
    rw [declared, Option.some_inj] at found
    rw [if_pos found.symm]
  · rename_i absent
    rw [declared] at absent
    cases absent

end SymbolTable

end DawnC
