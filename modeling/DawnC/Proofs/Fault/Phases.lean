import DawnC.Proofs.Fault.Parts
import DawnC.Proofs.Include.Faults

set_option autoImplicit false

namespace DawnC

namespace Fault

def ownPhase? : Fault → Option Phase
  | phase p .. => some p
  | _ => none

/-- The phases of the phase faults in a fault, in the order of a search. -/
def phases (f : Fault) : List Phase := f.parts.filterMap ownPhase?

variable {f : Fault}

theorem phase?_eq_find? (f : Fault) : f.phase? = f.parts.find? fun g => g.ownPhase?.isSome := by
  rw [phase?, find?_eq_findSome?, ← List.findSome?_guard]
  congr 1
  funext g
  cases g <;> rfl

theorem phase?_eq_none : f.phase? = none ↔ f.phases = [] := by
  rw [phase?_eq_find?, List.find?_eq_none, phases, List.filterMap_eq_nil_iff]
  exact forall₂_congr fun g inside => Option.not_isSome_iff_eq_none

theorem phaseCode?_eq_map (f : Fault) : f.phaseCode? = f.phases.head?.map Phase.code := by
  rw [phaseCode?, find?_eq_findSome?, phases, List.head?_filterMap, List.map_findSome?]
  congr 1
  funext g
  cases g <;> rfl

theorem missingSource?_eq_none :
    f.missingSource? = none ↔ ∀ path, sourceNotFound path ∉ f.parts := by
  rw [missingSource?, find?_eq_findSome?, List.findSome?_eq_none_iff]
  constructor
  · intro silent path inside
    cases silent _ inside
  · intro sourced g inside
    cases g with
    | sourceNotFound path => exact absurd inside (sourced path)
    | _ => rfl

/-- What is done to a fault on its way up. -/
inductive Handling where
  | inPhase (p : Phase)
  /-- a unit reports the fault in its phase -/
  | fail (u : CompilationUnit)
  | wrap (context : String)

namespace Handling

def apply : Handling → Fault → Fault
  | inPhase p, f => f.inPhase p
  | fail u, f => u.fail f
  | wrap context, f => f.wrap context

/-- The phase that the fault is put into. -/
def phase? : Handling → Option Phase
  | inPhase p => some p
  | fail u => some u.phase
  | wrap _ => none

end Handling

/-- The fault after all that is done to it, in this order. -/
def handled (f : Fault) (handlings : List Handling) : Fault :=
  handlings.foldl (fun f handling => handling.apply f) f

/-- The fault has this phase only, or none, and no missing source is in it. -/
structure Carries (f : Fault) (first : Option Phase) : Prop where
  phases : f.phases = first.toList
  sourced : f.missingSource? = none

theorem Bare.carries (bare : f.Bare) : f.Carries none :=
  ⟨phase?_eq_none.mp bare.1, bare.2⟩

theorem Carries.wrap {first : Option Phase} (carries : f.Carries first) (context : String) :
    (f.wrap context).Carries first := by
  refine ⟨?_, ?_⟩
  · rw [Fault.phases, parts, List.filterMap_cons_none rfl]
    exact carries.phases
  · rw [missingSource?, find?]
    exact carries.sourced

/-- The first phase stays: a fault without one gets the phase, any other gives its phase fault. -/
theorem Carries.inPhase {first : Option Phase} (carries : f.Carries first) (p : Phase) :
    (f.inPhase p).Carries (first.or (some p)) := by
  cases first with
  | none =>
      rw [Fault.inPhase, phase?_eq_none.mpr carries.phases, Option.getD_none]
      refine ⟨?_, ?_⟩
      · rw [Fault.phases, parts]
        exact congrArg (p :: ·) carries.phases
      · rw [missingSource?, find?]
        exact carries.sourced
  | some q =>
      have phased : f.phase? ≠ none := by
        rw [Ne, phase?_eq_none, carries.phases]
        exact List.cons_ne_nil q []
      obtain ⟨g, found⟩ := Option.ne_none_iff_exists'.mp phased
      rw [Fault.inPhase, found, Option.getD_some]
      rw [phase?_eq_find?] at found
      have within := parts_sublist (List.mem_of_find?_eq_some found)
      refine ⟨?_, missingSource?_eq_none.mpr fun path missing =>
        missingSource?_eq_none.mp carries.sourced path (within.subset missing)⟩
      -- the parts of `g` begin with `g`, so its phases are not empty
      have among : g.phases.Sublist f.phases := within.filterMap ownPhase?
      rw [carries.phases] at among
      refine among.eq_of_length_le (List.length_pos_iff.mpr fun empty => ?_)
      rw [Fault.phases, List.filterMap_eq_nil_iff] at empty
      have own := List.find?_some found
      rw [empty g (by rw [parts_eq]; exact List.mem_cons_self)] at own
      cases own

theorem Carries.fail {first : Option Phase} (carries : f.Carries first) (u : CompilationUnit) :
    (u.fail f).Carries (first.or (some u.phase)) := by
  rw [CompilationUnit.fail, carries.sourced]
  exact carries.inPhase u.phase

theorem Carries.apply {first : Option Phase} (carries : f.Carries first) (handling : Handling) :
    (handling.apply f).Carries (first.or handling.phase?) := by
  cases handling with
  | inPhase p => exact carries.inPhase p
  | fail u => exact carries.fail u
  | wrap context =>
      rw [Handling.phase?, Option.or_none]
      exact carries.wrap context

/-- Whatever is done to a fault, the first phase stays. -/
theorem Carries.handled {first : Option Phase} (carries : f.Carries first)
    (handlings : List Handling) :
    (f.handled handlings).Carries (first.or (handlings.findSome? Handling.phase?)) := by
  induction handlings generalizing f first with
  | nil =>
      rw [List.findSome?_nil, Option.or_none]
      exact carries
  | cons handling rest ih =>
      rw [findSome?_cons_eq_or, ← Option.or_assoc]
      exact ih (carries.apply handling)

end Fault

open Fault (Handling) in
/-- The first phase to fail is the one that is reported. A fault with no phase and no missing source in
it, whatever is then done to it, has the phase that it was put into first, once, and no other; if it was
put into none it has none. A fault of a phase stays what it is when it is put into any phase, and when any
unit reports it, if no missing source is in it. -/
theorem first_phase_stays {f : Fault} (bare : f.Bare) (handlings : List Handling) :
    (f.handled handlings).phases = (handlings.findSome? Handling.phase?).toList ∧
    (f.handled handlings).phaseCode? = (handlings.findSome? Handling.phase?).map Phase.code ∧
    (∀ (e : Fault) (p q : Phase), e.OfPhase p → e.inPhase q = e) ∧
    ∀ (e : Fault) (p : Phase) (u : CompilationUnit), e.OfPhase p →
      (∀ path, .sourceNotFound path ∉ e.parts) → u.fail e = e := by
  have carries := bare.carries.handled handlings
  rw [Option.none_or] at carries
  refine ⟨carries.phases, ?_, fun e p q ofPhase => ofPhase.inPhase q, ?_⟩
  · rw [Fault.phaseCode?_eq_map, carries.phases, Option.head?_toList]
  · intro e p u ofPhase sourced
    rw [CompilationUnit.fail, Fault.missingSource?_eq_none.mpr sourced]
    exact ofPhase.inPhase u.phase

/-- A fault that is wrapped before, between and after it is put into phases. -/
theorem first_phase_stays_rewrapped :
    let missing : Fault := .plain "lib.dawn: no such file"
    let handlings : List Fault.Handling :=
      [.wrap "reading lib.dawn", .inPhase .inclusion, .wrap "resolving includes",
        .fail { file := "main.dawn", phase := .convert }, .wrap "building", .inPhase .compile]
    missing.Bare ∧ (missing.handled handlings).phases = [.inclusion] ∧
      (missing.handled handlings).phaseCode? = some "r200" := by
  intro missing handlings
  have bare : missing.Bare := ⟨rfl, rfl⟩
  obtain ⟨phases, code, -⟩ := first_phase_stays bare handlings
  exact ⟨bare, phases, code⟩

end DawnC
