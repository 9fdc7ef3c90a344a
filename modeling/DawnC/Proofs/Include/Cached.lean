import DawnC.Proofs.Include.Effects
import DawnC.Proofs.Include.Relation
import DawnC.Proofs.Remote.Agreement

set_option autoImplicit false

namespace DawnC

/-- What the directives among atoms name. A directive takes the atom that follows it. -/
def targetsOf : List Atom → List String
  | keyword :: target :: rest =>
    (if keyword.isInclude then [unquoted target.text] else []) ++ targetsOf (target :: rest)
  | _ => []

/-- The file is local, or no fetch of it needs more than the cache: its checkout is there, or it is not
named as a reference has to be. -/
def Cache.covers (c : Cache) (s : Store) (target : String) : Bool :=
  !Reference.looksRemote target ||
    match Reference.parse target with
    | .ok r => c.holds s r.repo r.ref
    | .error _ => true

namespace Store

def targets (s : Store) (path : String) : List String :=
  match s.readLines path with
  | .ok lines => targetsOf (lines.flatMap atomsOf)
  | .error _ => []

/-- The file that a directive in `including` means. A remote one is meant as it is in the cache. -/
def meant? (s : Store) (c : Cache) (including target : String) : Option String :=
  if Reference.looksRemote target then
    match Reference.parse target with
    | .ok r => (c.resolve s r).toOption
    | .error _ => none
  else some (includedPath including target)

/-- The file is the root or is named by a directive, over any number of files. -/
def Meets (s : Store) (c : Cache) (root path : String) : Prop :=
  Relation.ReflTransGen (fun including included =>
    ∃ target ∈ s.targets including, s.meant? c including target = some included) (s.rootPath root) path

/-- Whatever remote file the program names is in the cache. -/
def HasCached (s : Store) (c : Cache) (root : String) : Prop :=
  ∀ path, s.Meets c root path → ∀ target ∈ s.targets path, c.covers s target = true

/-- The directives of a file mean files of `allowed`, or remote files that are not there. -/
def coversWithin (s : Store) (c : Cache) (allowed : List String) (path : String) : Bool :=
  (s.targets path).all fun target =>
    c.covers s target && (s.meant? c path target).all (· ∈ allowed)

/-- It is enough to look at files that name only each other. -/
theorem HasCached.of_coversWithin {s : Store} {c : Cache} {root : String} {files : List String}
    (rooted : s.rootPath root ∈ files) (each : ∀ path ∈ files, s.coversWithin c files path = true) :
    s.HasCached c root := by
  have covered {path : String} (member : path ∈ files) {target : String}
      (named : target ∈ s.targets path) :
      c.covers s target = true ∧ ∀ included ∈ s.meant? c path target, included ∈ files := by
    have all := List.all_eq_true.mp (each path member) target named
    simpa [Option.all_eq_true] using all
  have inside {path : String} (met : s.Meets c root path) : path ∈ files := by
    induction met with
    | refl => exact rooted
    | tail _ included ih =>
        obtain ⟨target, named, meant⟩ := included
        exact (covered ih named).2 _ meant
  intro path met target named
  exact (covered (inside met) named).1

/-- If these are the files before, they are the files after. -/
def Remains (s before after : Store) : Prop := before = s → after = s

instance (s : Store) : IsPreorder Store (Remains s) where
  refl _ same := same
  trans _ _ _ first second same := second (first same)

end Store

theorem targetsOf_congr {atoms atoms' : List Atom}
    (same : atoms.map (fun a => (a.isInclude, a.text)) = atoms'.map fun a => (a.isInclude, a.text)) :
    targetsOf atoms = targetsOf atoms' := by
  induction atoms generalizing atoms' with
  | nil =>
      rw [List.map_nil, eq_comm, List.map_eq_nil_iff] at same
      rw [same]
  | cons a rest ih =>
      obtain ⟨a', rest', rfl, first, later⟩ := List.map_eq_cons_iff.mp same.symm
      have rests := ih later.symm
      rw [Prod.mk.injEq] at first
      cases rest with
      | nil =>
          rw [List.map_nil, List.map_eq_nil_iff] at later
          rw [later]
          rfl
      | cons b more =>
          obtain ⟨b', more', rfl, second, -⟩ := List.map_eq_cons_iff.mp later
          rw [Prod.mk.injEq] at second
          rw [targetsOf, targetsOf, rests, first.1, second.2]

theorem targetsOf_lex (file : String) (lines : List Bytes) :
    targetsOf (lex file lines) = targetsOf (lines.flatMap atomsOf) := by
  rw [lex_eq]
  apply targetsOf_congr
  have read (line stmt : Int) : (atomsFrom file line stmt lines).map (fun a => (a.isInclude, a.text)) =
      (lines.flatMap atomsOf).map fun a => (a.isInclude, a.text) := by
    induction lines generalizing line stmt with
    | nil => rfl
    | cons first rest ih =>
        rw [atomsFrom, List.map_append, ih, List.map_map, List.flatMap_cons, List.map_append]
        rfl
  exact read 0 0

open Attempt (Sustains run_bind_ok run_bind_error run_tryCatch_ok run_tryCatch_error)
open Store (Remains)

variable {s : Store} {c : Cache} {root : String} {w : World}

/-- A directive whose file needs no clone is resolved without a change, to the file it means. -/
theorem run_resolveTarget_of_covers (remotes : Remotes) (including : String) {target : String}
    (covered : c.covers w.store target = true) :
    ∃ result events,
      (resolveTarget (some (c.fetch remotes)) including target).run w = (result, { w with events }) ∧
      ∀ found name, result = .ok (found, name) → w.store.meant? c including target = some found := by
  unfold resolveTarget
  dsimp only
  by_cases empty : target = ""
  · rw [if_pos empty]
    exact ⟨_, w.events, rfl, fun _ _ impossible => by cases impossible⟩
  · rw [if_neg empty]
    by_cases remote : Reference.looksRemote target = true
    · rw [Cache.covers, remote] at covered
      rw [if_pos remote, Store.meant?, if_pos remote]
      cases parsed : Reference.parse target with
      | error fault =>
          have thrown : (c.fetch remotes target).run w = (.error (.reference target fault), w) := by
            rw [Cache.fetch, parsed]
            rfl
          exact ⟨_, w.events, run_bind_error (run_tryCatch_error thrown),
            fun _ _ impossible => by cases impossible⟩
      | ok r =>
          rw [parsed] at covered
          have ran := Cache.run_fetch_of_holds parsed remotes covered
          cases resolved : c.resolve w.store r with
          | error fault =>
              rw [resolved] at ran
              exact ⟨_, _, run_bind_error (run_tryCatch_error ran),
                fun _ _ impossible => by cases impossible⟩
          | ok path =>
              rw [resolved] at ran
              refine ⟨_, _, run_bind_ok (run_tryCatch_ok ran), ?_⟩
              intro found name same
              cases same
              dsimp only
              rw [resolved]
              rfl
    · rw [if_neg remote, Store.meant?, if_neg remote]
      have stored : Action.store.run w = (.ok w.store, w) := rfl
      rw [run_bind_ok stored]
      split
      · exact ⟨_, w.events, rfl, fun _ _ impossible => by cases impossible⟩
      · exact ⟨_, w.events, rfl, fun _ _ impossible => by cases impossible⟩
      · refine ⟨_, w.events, rfl, ?_⟩
        intro found name same
        cases same
        rfl

theorem run_resolveDirective_of_covers (remotes : Remotes) (including : String) (index : Nat)
    {target : Atom} (covered : c.covers w.store (unquoted target.text) = true) :
    ∃ result events,
      (resolveDirective (some (c.fetch remotes)) including index target).run w =
        (result, { w with events }) ∧
      ∀ found name, result = .ok (found, name) →
        w.store.meant? c including (unquoted target.text) = some found := by
  obtain ⟨result, events, ran, meant⟩ := run_resolveTarget_of_covers remotes including covered
  cases result with
  | error fault =>
      exact ⟨_, events, run_tryCatch_error ran, fun _ _ impossible => by cases impossible⟩
  | ok found => exact ⟨_, events, run_tryCatch_ok ran, meant⟩

section Reading

variable (cached : s.HasCached c root) (remotes : Remotes)

include cached

theorem followIncludes_of_cached {enter : String → String → Discovery → Action Discovery}
    (entered : ∀ path display d, s.Meets c root path →
      Sustains (World.OnStore (Remains s)) (enter path display d))
    {path : String} (met : s.Meets c root path) (display : String) (index : Nat) {atoms : List Atom}
    (named : ∀ target ∈ targetsOf atoms, target ∈ s.targets path) (d : Discovery) :
    Sustains (World.OnStore (Remains s))
      (followIncludes (some (c.fetch remotes)) enter path display index atoms d) := by
  induction atoms generalizing index d with
  | nil => exact .pure d
  | cons a rest ih =>
      have later : ∀ target ∈ targetsOf rest, target ∈ s.targets path := by
        intro target member
        cases rest with
        | nil => cases member
        | cons b more => exact named target (List.mem_append_right _ member)
      unfold followIncludes
      split
      · exact ih _ later _
      · rename_i directive
        cases rest with
        | nil => exact .throw _
        | cons target more =>
            have here : unquoted target.text ∈ s.targets path := by
              apply named
              have isDirective : a.isInclude = true := by simpa using directive
              simp [targetsOf, isDirective]
            intro w same
            obtain ⟨result, events, ran, meant⟩ := run_resolveDirective_of_covers remotes path index
              (w := w) (by rw [same]; exact cached path met _ here)
            cases result with
            | error fault =>
                rw [run_bind_error ran]
                exact same
            | ok found =>
                obtain ⟨found, name⟩ := found
                have next : s.Meets c root found := by
                  have means := meant found name rfl
                  rw [same] at means
                  exact met.tail ⟨_, here, means⟩
                rw [run_bind_ok ran]
                refine (Sustains.bind (Action.sustains_tell _) fun _ => ?_ :
                  Sustains (World.OnStore (Remains s)) _) { w with events } same
                dsimp only
                split
                · exact ih _ later _
                · exact .bind (entered _ _ _ next) fun _ => ih _ later _

/-- A file of the program is read without a change, with all that it includes. -/
theorem discover_of_cached (depth : Nat) {path : String} (met : s.Meets c root path) (display : String)
    (d : Discovery) :
    Sustains (World.OnStore (Remains s)) (discover (some (c.fetch remotes)) depth path display d) := by
  induction depth generalizing path display d with
  | zero => exact .throw _
  | succ depth ih =>
      intro w same
      have stored : Action.store.run w = (.ok w.store, w) := rfl
      rw [discover, run_bind_ok stored, same]
      cases read : s.readLines path with
      | error fault =>
          have failed : (Action.inPhase .read (Action.within ("reading " ++ display)
              (Action.ofExcept (.error fault : Except Fault (List Bytes))))).run w = (.error _, w) := rfl
          rw [run_bind_error failed]
          exact same
      | ok lines =>
          have named : ∀ target ∈ targetsOf (lex display lines), target ∈ s.targets path := by
            intro target member
            rw [Store.targets, read]
            rwa [targetsOf_lex] at member
          have done : (Action.inPhase .read (Action.within ("reading " ++ display)
              (Action.ofExcept (.ok lines)))).run w = (.ok lines, w) := rfl
          rw [run_bind_ok done]
          exact followIncludes_of_cached cached remotes (fun _ _ _ next => ih next _ _) met _ _ named _ w same

theorem load_of_cached : Sustains (World.OnStore (Remains s)) (load (some (c.fetch remotes)) root) := by
  intro w same
  have stored : Action.store.run w = (.ok w.store, w) := rfl
  rw [load, run_bind_ok stored, same]
  generalize depthLimit = depth
  split
  · exact same
  · rcases s.absolute_cases root with placed | ⟨-, -, lost⟩
    · rw [placed]
      refine (Sustains.bind (discover_of_cached cached remotes _ .refl _ _) fun d => ?_ :
        Sustains (World.OnStore (Remains s)) _) w same
      split
      · exact .throw _
      · exact .bind (Action.sustains_tell _) fun _ => .pure _
    · rw [lost]
      exact same

end Reading

/-- A program whose remote files are in the cache is translated without a change to the files. -/
theorem transpile_of_cached (cached : w.store.HasCached c root) (remotes : Remotes) :
    ((transpile (some (c.fetch remotes)) root).run w).2.store = w.store :=
  transpile_sustains_of_load (load_of_cached cached remotes) w rfl

end DawnC
