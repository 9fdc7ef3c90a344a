import DawnC.Fault

set_option autoImplicit false

namespace DawnC.Fault

def causes : Fault → List Fault
  | wrap _ cause => [cause]
  | phase _ _ _ _ _ cause => cause.toList
  | multi members => members.filterMap id
  | _ => []

mutual

/-- The fault and all faults in it, each before those in it. -/
def parts : Fault → List Fault
  | wrap context cause => wrap context cause :: cause.parts
  | phase p source line index atom none => [phase p source line index atom none]
  | phase p source line index atom (some cause) =>
    phase p source line index atom (some cause) :: cause.parts
  | multi members => multi members :: partsIn members
  | f => [f]

def partsIn : List (Option Fault) → List Fault
  | [] => []
  | none :: rest => partsIn rest
  | some f :: rest => f.parts ++ partsIn rest

end

theorem partsIn_eq (members : List (Option Fault)) :
    partsIn members = (members.filterMap id).flatMap parts := by
  induction members with
  | nil => rfl
  | cons member rest ih =>
      cases member with
      | none => exact ih
      | some f =>
          rw [partsIn, ih]
          rfl

theorem parts_eq (f : Fault) : f.parts = f :: f.causes.flatMap parts := by
  cases f with
  | wrap context cause =>
      rw [parts, causes, List.flatMap_singleton]
  | phase p source line index atom cause =>
      cases cause with
      | none => rfl
      | some cause =>
          rw [parts, causes, Option.toList_some, List.flatMap_singleton]
  | multi members =>
      rw [parts, causes, partsIn_eq]
  | _ => rfl

variable {α : Type}

theorem findSome?_cons_eq_or {β : Type} (ask : β → Option α) (a : β) (rest : List β) :
    (a :: rest).findSome? ask = (ask a).or (rest.findSome? ask) := by
  rw [List.findSome?_cons]
  cases ask a <;> rfl

theorem findIn?_eq (select : Fault → Option α) (members : List (Option Fault)) :
    findIn? select members = (members.filterMap id).findSome? (find? select) := by
  induction members with
  | nil => rfl
  | cons member rest ih =>
      cases member with
      | none => exact ih
      | some f =>
          rw [findIn?, ih]
          exact (findSome?_cons_eq_or _ f _).symm

/-- A search asks the fault first, then what is right below it. -/
theorem find?_eq (select : Fault → Option α) (f : Fault) :
    f.find? select = (select f).or (f.causes.findSome? (find? select)) := by
  cases f with
  | wrap context cause =>
      rw [find?, causes, List.findSome?_singleton]
  | phase p source line index atom cause =>
      cases cause with
      | none => rw [find?, causes, Option.toList_none, List.findSome?_nil, Option.or_none]
      | some cause => rw [find?, causes, Option.toList_some, List.findSome?_singleton]
  | multi members => rw [find?, causes, findIn?_eq]
  | _ => exact Option.or_none.symm

theorem sizeOf_lt_of_mem_causes {f g : Fault} (below : g ∈ f.causes) : sizeOf g < sizeOf f := by
  cases f with
  | wrap context cause =>
      cases List.mem_singleton.mp below
      rw [wrap.sizeOf_spec]
      omega
  | phase p source line index atom cause =>
      cases Option.mem_toList.mp below
      rw [phase.sizeOf_spec, Option.some.sizeOf_spec]
      omega
  | multi members =>
      obtain ⟨member, listed, found⟩ := List.mem_filterMap.mp below
      have smaller := List.sizeOf_lt_of_mem listed
      rw [show member = some g from found, Option.some.sizeOf_spec] at smaller
      rw [multi.sizeOf_spec]
      omega
  | _ => cases below

/-- What holds of a fault whenever it holds of those right below it holds of all faults. -/
theorem induction_causes {P : Fault → Prop} (step : ∀ f, (∀ g ∈ f.causes, P g) → P f) (f : Fault) :
    P f :=
  step f fun g _ => induction_causes step g
termination_by sizeOf f
decreasing_by exact sizeOf_lt_of_mem_causes ‹_›

/-- A search gives what the first of the parts says that says anything. -/
theorem find?_eq_findSome? (select : Fault → Option α) (f : Fault) :
    f.find? select = f.parts.findSome? select := by
  have list (faults : List Fault) (each : ∀ g ∈ faults, g.find? select = g.parts.findSome? select) :
      faults.findSome? (find? select) = (faults.flatMap parts).findSome? select := by
    induction faults with
    | nil => rfl
    | cons g rest ih =>
        rw [findSome?_cons_eq_or, List.flatMap_cons, List.findSome?_append,
          each g List.mem_cons_self, ih fun h member => each h (List.mem_cons_of_mem g member)]
  induction f using induction_causes with
  | step f ih => rw [find?_eq, list f.causes ih, parts_eq, findSome?_cons_eq_or]

/-- The parts of a part are among the parts, in the same order. -/
theorem parts_sublist {f g : Fault} (inside : g ∈ f.parts) : g.parts.Sublist f.parts := by
  induction f using induction_causes with
  | step f ih =>
    rw [parts_eq, List.mem_cons, List.mem_flatMap] at inside
    rcases inside with rfl | ⟨cause, below, inside⟩
    · exact .refl _
    · rw [parts_eq f]
      refine .cons _ ((ih cause below inside).trans ?_)
      exact List.sublist_flatten_of_mem (List.mem_map_of_mem below)

end DawnC.Fault
