import DawnC.Proofs.Build.Faults
import DawnC.Proofs.Fault.Parts
import DawnC.Proofs.Remote.Agreement

set_option autoImplicit false

namespace DawnC

open Attempt (Throws)

namespace Fault

variable {α : Type} {select : Fault → Option α} {a : α} {f : Fault}

theorem exists_of_find? (found : f.find? select = some a) : ∃ g, select g = some a := by
  rw [find?_eq_findSome?] at found
  obtain ⟨g, -, selected⟩ := List.exists_of_findSome?_eq_some found
  exact ⟨g, selected⟩

/-- A fault of the phase `p`, whatever its place and its cause. -/
def OfPhase (p : Phase) (f : Fault) : Prop :=
  ∃ source line index atom cause, f = .phase p source line index atom cause

variable {p : Phase}

/-- What is put into a phase is a fault of that phase, or of the phase where it was before. -/
theorem exists_ofPhase_inPhase (p : Phase) (f : Fault) : ∃ q, (f.inPhase p).OfPhase q := by
  rw [inPhase]
  cases found : f.phase? with
  | none => exact ⟨p, _, _, _, _, _, rfl⟩
  | some g =>
      obtain ⟨h, selected⟩ := exists_of_find? found
      split at selected
      · cases selected
        exact ⟨_, _, _, _, _, _, rfl⟩
      · cases selected

theorem Bare.ofPhase_inPhase (bare : f.Bare) (p : Phase) : (f.inPhase p).OfPhase p := by
  rw [Fault.inPhase, bare.1]
  exact ⟨_, _, _, _, _, rfl⟩

theorem OfPhase.inPhase (ofPhase : f.OfPhase p) (q : Phase) : f.inPhase q = f := by
  obtain ⟨source, line, index, atom, cause | cause, rfl⟩ := ofPhase
  · rfl
  · rfl

theorem OfPhase.phaseCode? (ofPhase : f.OfPhase p) : f.phaseCode? = some p.code := by
  obtain ⟨source, line, index, atom, cause | cause, rfl⟩ := ofPhase
  · rfl
  · rfl

/-- A fault that reading a program can have: no source is missing, and it is one of the read phase or of
the includes, if not by itself then once it is reported. -/
def Reading (f : Fault) : Prop :=
  f.missingSource? = none ∧ ∃ p ∈ [Phase.read, .inclusion], (f.inPhase .read).OfPhase p

theorem Bare.reading (bare : f.Bare) : f.Reading :=
  ⟨bare.2, .read, by simp, bare.ofPhase_inPhase .read⟩

theorem OfPhase.reading (ofPhase : f.OfPhase p) (early : p ∈ [Phase.read, .inclusion])
    (sourced : f.missingSource? = none) : f.Reading := by
  refine ⟨sourced, p, early, ?_⟩
  rw [ofPhase.inPhase]
  exact ofPhase

theorem Bare.reading_inPhase (bare : f.Bare) (early : p ∈ [Phase.read, .inclusion]) :
    (f.inPhase p).Reading := (bare.ofPhase_inPhase p).reading early (bare.inPhase p)

end Fault

open Fault (Bare Reading)

variable {fetcher : Option Fetcher}

theorem Attempt.Throws.bind_ok {ε σ α β : Type} {P : ε → Prop} {x : Attempt ε σ α} {f : α → Attempt ε σ β}
    (first : Throws P x) (second : ∀ a s t, x.run s = (.ok a, t) → Throws P (f a)) : Throws P (x >>= f) := by
  intro s e t failed
  rcases run_bind_eq_error.mp failed with early | ⟨a, s', ran, late⟩
  · exact first s e t early
  · exact second a s s' ran s' e t late

theorem Store.readLines_bare {s : Store} {path : String} {fault : Fault}
    (failed : s.readLines path = .error fault) : fault.Bare := by
  rw [readLines] at failed
  split at failed
  · cases failed
    exact ⟨rfl, rfl⟩
  · split at failed
    · cases failed
    · cases failed
      exact ⟨rfl, rfl⟩

/-- The faults met on the way to a repository's files are bare. -/
structure Remotes.Bare (remotes : Remotes) : Prop where
  room : ∀ fault, remotes.room = .error fault → fault.Bare
  cloned : ∀ url fault, remotes.clone url = .error fault → fault.Bare
  checkedOut : ∀ url repository version fault, remotes.clone url = .ok repository →
    repository.checkout version = .error fault → fault.Bare

theorem Cache.storeTree_throws (c : Cache) (view : Store → Store) (repo ref source : String) :
    Throws Bare (c.storeTree view repo ref source) :=
  .bind (Action.throws_within _ (Action.throws_files _)) fun _ => Action.throws_files _

/-- A fetch from repositories whose faults are bare has bare faults only. -/
theorem Cache.fetch_throws (c : Cache) {remotes : Remotes} (bare : remotes.Bare) (text : String) :
    Throws Bare (c.fetch remotes text) := by
  rw [fetch]
  split
  · exact .throw ⟨rfl, rfl⟩
  · rename_i r _
    have resolved : Throws Bare (do
        let s ← Action.store
        Action.ofExcept ((c.resolve s r).mapError Fault.cache) : Action String) := by
      refine .bind Action.throws_store fun s => Action.throws_ofExcept fun fault failed => ?_
      cases found : c.resolve s r with
      | error missing =>
          rw [found] at failed
          cases failed
          exact ⟨rfl, rfl⟩
      | ok path =>
          rw [found] at failed
          cases failed
    refine .bind Action.throws_store fun s => ?_
    split
    · exact .bind (Action.throws_tell _) fun _ => resolved
    · refine .bind (Action.throws_within _ (Action.throws_files _)) fun _ =>
        .bind (Action.throws_within _ (Action.throws_ofExcept bare.room)) fun _ =>
        .bind (Action.throws_tell _) fun _ => ?_
      refine .bind_ok (Action.throws_within _ (Action.throws_ofExcept (bare.cloned _)))
        fun repository w w' ran => ?_
      have cloned : remotes.clone r.url = .ok repository := by
        have made := Action.of_run_within ran
        cases found : remotes.clone r.url with
        | error fault =>
            rw [found] at made
            cases made
        | ok repository' =>
            rw [found] at made
            cases made
            rfl
      exact .bind (Action.throws_within _ (Action.throws_ofExcept fun fault =>
          bare.checkedOut _ _ _ _ cloned)) fun files =>
        .bind (Action.throws_within _ (c.storeTree_throws _ _ _ _)) fun _ => resolved

section Reading

variable (fetched : ∀ fetch ∈ fetcher, ∀ text, Throws Bare (fetch text))

include fetched

theorem resolveTarget_throws (including target : String) :
    Throws Bare (resolveTarget fetcher including target) := by
  unfold resolveTarget
  dsimp only
  by_cases empty : target = ""
  · rw [if_pos empty]
    intro w fault w' failed
    cases failed
    exact ⟨rfl, rfl⟩
  · rw [if_neg empty]
    split
    · cases fetcher with
      | none => exact .throw ⟨rfl, rfl⟩
      | some fetch =>
          exact .bind (Action.throws_within _ (fetched fetch rfl target)) fun _ => .pure _
    · refine .bind Action.throws_store fun s => ?_
      split
      · exact .throw ⟨rfl, rfl⟩
      · exact .throw ⟨rfl, rfl⟩
      · exact .pure _

theorem resolveDirective_throws (including : String) (index : Nat) (target : Atom) :
    Throws Reading (resolveDirective fetcher including index target) := by
  refine .tryCatch (resolveTarget_throws fetched _ _) fun fault bare => .throw ?_
  refine Fault.OfPhase.reading ⟨_, _, _, _, _, rfl⟩ (by simp) ?_
  rw [Fault.missingSource?, Fault.find?]
  exact bare.2

theorem followIncludes_throws {enter : String → String → Discovery → Action Discovery}
    (entered : ∀ path display d, Throws Reading (enter path display d)) (path display : String)
    (index : Nat) (atoms : List Atom) (d : Discovery) :
    Throws Reading (followIncludes fetcher enter path display index atoms d) := by
  induction atoms generalizing index d with
  | nil => exact .pure d
  | cons a rest ih =>
      unfold followIncludes
      split
      · exact ih _ _
      · cases rest with
        | nil => exact .throw (Fault.OfPhase.reading ⟨_, _, _, _, _, rfl⟩ (by simp) rfl)
        | cons target later =>
            refine .bind (resolveDirective_throws fetched _ _ _) fun found =>
              .bind (Action.throws_tell _) fun _ => ?_
            dsimp only
            split
            · exact ih _ _
            · exact .bind (entered _ _ _) fun _ => ih _ _

theorem discover_throws (depth : Nat) (path display : String) (d : Discovery) :
    Throws Reading (discover fetcher depth path display d) := by
  induction depth generalizing path display d with
  | zero => exact .throw (Bare.reading ⟨rfl, rfl⟩)
  | succ depth ih =>
      rw [discover]
      refine .bind Action.throws_store fun s => .bind ?_ fun lines =>
        followIncludes_throws fetched ih _ _ _ _ _
      refine .tryCatch (Action.throws_within _ (Action.throws_ofExcept fun _ => Store.readLines_bare))
        fun fault bare => .throw (bare.reading_inPhase (by simp))

/-- A program whose root is a file fails with a fault of reading, if it cannot be read. -/
theorem load_error {root : String} {w w' : World} {fault : Fault}
    (failed : (load fetcher root).run w = (.error fault, w'))
    (isFile : w.store.isFile root = true) : fault.Reading := by
  have stored : Action.store.run w = (.ok w.store, w) := rfl
  rw [load, Attempt.run_bind_ok stored, isFile] at failed
  have placed : Throws Bare (Action.ofExcept (w.store.absolute root)) := by
    refine Action.throws_ofExcept fun fault failed => ?_
    rcases w.store.absolute_cases root with found | ⟨-, -, lost⟩
    · cases found.symm.trans failed
    · cases lost.symm.trans failed
      exact ⟨rfl, rfl⟩
  refine (Throws.bind (.tryCatch placed fun fault bare => .throw (bare.reading_inPhase (by simp))) fun path =>
    .bind (discover_throws fetched _ _ _ _) fun d => ?_ : Throws Reading _) _ _ _ failed
  split
  · exact .throw (Bare.reading_inPhase ⟨rfl, rfl⟩ (by simp))
  · exact .bind (Action.throws_tell _) fun _ => .pure _

end Reading

theorem load_of_no_file (fetcher : Option Fetcher) {root : String} {w : World}
    (noFile : w.store.isFile root = false) :
    (load fetcher root).run w = (.error (.sourceNotFound root), w) := by
  have stored : Action.store.run w = (.ok w.store, w) := rfl
  rw [load, Attempt.run_bind_ok stored, noFile]
  rfl

end DawnC
