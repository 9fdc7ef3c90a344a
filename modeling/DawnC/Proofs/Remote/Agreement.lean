import DawnC.Proofs.Remote.Fetch
import DawnC.Proofs.Remote.Reference
import DawnC.Proofs.Store.Agreement

set_option autoImplicit false

namespace DawnC

namespace Action

open Attempt (run_tryCatch_ok run_tryCatch_error)

variable {α : Type} {w w' : World}

theorem of_run_within {context : String} {action : Action α} {a : α}
    (ran : (within context action).run w = (.ok a, w')) : action.run w = (.ok a, w') := by
  rcases first : action.run w with ⟨fault | b, u⟩
  · rw [within, run_tryCatch_error first] at ran
    cases ran
  · rw [within, run_tryCatch_ok first] at ran
    exact ran

theorem of_run_files {action : FileAction α} {a : α} (ran : (files action).run w = (.ok a, w')) :
    action.run w.store = (.ok a, w'.store) := by
  rcases first : action.run w.store with ⟨fault | b, s⟩
  · rw [run_files first] at ran
    cases ran
  · rw [run_files first] at ran
    cases ran
    rfl

end Action

theorem Reference.file_of_parse {text : String} {r : Reference} (parsed : parse text = .ok r) :
    ∃ (names : List String) (valid : ∀ name ∈ names, Path.IsName name),
      names ≠ [] ∧ r.file = (Path.Normal.below names valid).text := by
  obtain ⟨names, long, valid, -, file⟩ := names_of_parse parsed
  have filled : names.drop 3 ≠ [] := by
    intro empty
    have short := List.drop_eq_nil_iff.mp empty
    omega
  refine ⟨names.drop 3, fun name member => valid name (List.mem_of_mem_drop member), filled, ?_⟩
  exact file.trans (if_neg filled).symm

namespace Cache

open Attempt (Respects Sustains run_bind_ok run_bind_error run_tryCatch_ok run_tryCatch_error)
open Store (AgreeAt Changes Grows)
open FileAction (Inside)
open DawnC.Path (Normal IsName)

variable {v : Store} {c : Cache} {remotes : Remotes} {r : Reference} {cwd base p : Location}
  {d e : Normal} {s t : Store} {w w' : World}

section Storing

variable {repo ref : String}

theorem copyBelow_inside :
    Respects (Inside cwd base d) (copyBelow (fun _ => v) d.text pathLimit "/" ".") := by
  apply copyBelow_root_closed Respects.closed
  intro init name valid path
  refine copyFile_closed Respects.closed ?_ ?_ path
  · rw [Normal.join_text, Normal.directory_under]
    exact FileAction.makeDirectories_inside
  · intro contents
    rw [Normal.join_text]
    exact FileAction.writeFileAs_inside (by simp) false contents

/-- Storing a checkout comes to the same in trees that agree at its place. -/
theorem storeTree_respects (normal : c.checkoutPath repo ref = d.text) :
    Respects (World.OnStore (AgreeAt cwd base (d.place cwd)))
      (c.storeTree (fun _ => v) repo ref "/") := by
  rw [storeTree_eq, normal]
  apply Respects.bind_of_ok
  · exact Action.respects_within _ (Action.respects_files
      (FileAction.makeDirectories_respects d (Or.inl List.prefix_rfl)))
  · intro w w' _ u u' agree ran _ agree'
    obtain ⟨usable, directory⟩ := FileAction.directory_of_makeDirectories agree.left
      (Action.of_run_files (Action.of_run_within ran))
    rw [agree'.left.sees_eq (Store.directory_base agree'.leftHere)] at directory
    obtain ⟨same, inside⟩ := Action.respects_files (copyBelow_inside (v := v)) u u'
      (show World.OnStore (Inside cwd base d) u u' from ⟨agree', usable, directory⟩)
    exact ⟨same, inside.agree⟩

end Storing

/-- Trees that agree at the place of a checkout both hold it or both do not. -/
theorem holds_agree (agree : AgreeAt cwd base (d.place cwd) s t)
    (normal : c.checkoutPath r.repo r.ref = d.text) :
    c.holds s r.repo r.ref = c.holds t r.repo r.ref := by
  rw [Bool.eq_iff_iff, holds_iff agree.left normal, holds_iff agree.right normal,
    agree.left.sees_eq (Store.directory_base agree.leftHere),
    agree.right.sees_eq (Store.directory_base agree.rightHere), (agree.below _ List.prefix_rfl).1]

theorem ensure_respects (clean : c.dir = e.text) : Respects (AgreeAt cwd (e.place cwd) p) c.ensure := by
  rw [ensure, clean]
  exact FileAction.makeDirectories_respects e (Or.inr List.prefix_rfl)

theorem provide_respects (clean : c.dir = e.text)
    (normal : c.checkoutPath r.repo r.ref = d.text) :
    Respects (World.OnStore (AgreeAt cwd (e.place cwd) (d.place cwd))) (c.provide remotes r) := by
  intro w w' agree
  have stored (w : World) : Action.store.run w = (.ok w.store, w) := rfl
  rw [provide, run_bind_ok (stored w), run_bind_ok (stored w'), holds_agree agree normal]
  split
  · exact Action.respects_tell _ w w' agree
  · refine Respects.bind ?_ ?_ w w' agree
    · exact Action.respects_within _ (Action.respects_files (ensure_respects clean))
    · intro _
      refine Respects.bind (Action.respects_within _ (Action.respects_ofExcept _)) fun _ => ?_
      refine Respects.bind (Action.respects_tell _) fun _ => ?_
      refine Respects.bind (Action.respects_within _ (Action.respects_ofExcept _)) fun repository => ?_
      refine Respects.bind (Action.respects_within _ (Action.respects_ofExcept _)) fun files => ?_
      exact Action.respects_within _ (storeTree_respects normal)

theorem find_of_resolve {path : String} (found : c.resolve s r = .ok path) :
    path = Path.join [c.checkoutPath r.repo r.ref, r.file] ∧
      ∃ contents executable, s.find path = .ok (.file contents executable) := by
  rw [resolve] at found
  split at found
  · cases found
  · dsimp only at found
    split at found
    · cases found
    · cases found
    · rename_i contents executable there
      cases found
      exact ⟨rfl, contents, executable, there⟩

theorem path_of_resolve {path : String} (found : c.resolve s r = .ok path) :
    path = Path.join [c.checkoutPath r.repo r.ref, r.file] := (find_of_resolve found).1

/-- What a fetch finds in the checkout: the path of the file, with what is read there. -/
def found (c : Cache) (s : Store) (r : Reference) : Except Fault (String × Except FileFault Bytes) :=
  ((c.resolve s r).mapError Fault.cache).map fun path => (path, s.readFile path)

/-- The file of a reference is found alike in trees that agree at the place of its checkout. -/
theorem found_agree {text : String} (parsed : Reference.parse text = .ok r)
    (agree : AgreeAt cwd base (d.place cwd) s t) (normal : c.checkoutPath r.repo r.ref = d.text) :
    c.found s r = c.found t r := by
  have holding := holds_agree agree normal
  cases held : c.holds s r.repo r.ref with
  | false =>
      rw [held] at holding
      rw [found, found, resolve, resolve, held, ← holding]
      rfl
  | true =>
      obtain ⟨usable, directory⟩ := (holds_iff agree.left normal).mp held
      rw [agree.left.sees_eq (Store.directory_base agree.leftHere)] at directory
      obtain ⟨names, valid, filled, file⟩ := Reference.file_of_parse parsed
      have path : Path.join [c.checkoutPath r.repo r.ref, r.file] = (d.under names valid).text := by
        rw [normal, file, Normal.join_text]
      have same := agree.sameAt usable directory valid filled
      have resolved : c.resolve s r = c.resolve t r := by
        rw [resolve, resolve, holding, path]
        dsimp only
        rw [same.find]
      cases there : c.resolve s r with
      | error fault =>
          rw [found, found, ← resolved, there]
          rfl
      | ok path' =>
          obtain ⟨rfl, contents, executable, isFile⟩ := find_of_resolve there
          rw [path] at isFile
          rw [found, found, ← resolved, there, path]
          have read := same.readFile isFile
          exact congrArg (fun contents => Except.ok ((d.under names valid).text, contents)) read

/-- What comes of a fetch: the path it gives, with what is read there, or the fault. -/
def outcome (c : Cache) (remotes : Remotes) (text : String) (w : World) :
    Except Fault (String × Except FileFault Bytes) :=
  ((c.fetch remotes text).run w).1.map fun path =>
    (path, ((c.fetch remotes text).run w).2.store.readFile path)

section Parsed

variable {text : String} (parsed : Reference.parse text = .ok r)

include parsed

theorem run_fetch_of_error {fault : Fault} (failed : (c.provide remotes r).run w = (.error fault, w')) :
    (c.fetch remotes text).run w = (.error fault, w') := by
  rw [fetch_of_parse parsed, run_bind_error failed]

theorem run_fetch_of_provided (provided : (c.provide remotes r).run w = (.ok (), w')) :
    (c.fetch remotes text).run w = ((c.resolve w'.store r).mapError Fault.cache, w') := by
  have stored : Action.store.run w' = (.ok w'.store, w') := rfl
  rw [fetch_of_parse parsed, run_bind_ok provided, run_bind_ok stored]
  cases c.resolve w'.store r with
  | error fault => rfl
  | ok path => rfl

theorem outcome_of_error {fault : Fault} (failed : (c.provide remotes r).run w = (.error fault, w')) :
    c.outcome remotes text w = .error fault := by
  rw [outcome, run_fetch_of_error parsed failed]
  rfl

theorem outcome_of_provided (provided : (c.provide remotes r).run w = (.ok (), w')) :
    c.outcome remotes text w = c.found w'.store r := by
  rw [outcome, run_fetch_of_provided parsed provided, found]

/-- The state after a fetch is the state after providing the checkout. -/
theorem run_fetch_state (w : World) :
    ((c.fetch remotes text).run w).2 = ((c.provide remotes r).run w).2 := by
  rcases ran : (c.provide remotes r).run w with ⟨fault | done, w'⟩
  · rw [run_fetch_of_error parsed ran]
  · rw [run_fetch_of_provided parsed ran]

/-- A checkout that is there is looked up, and nothing is cloned. -/
theorem run_fetch_of_holds (remotes : Remotes) (held : c.holds w.store r.repo r.ref = true) :
    (c.fetch remotes text).run w =
      ((c.resolve w.store r).mapError .cache, { w with events := w.events ++ [.cacheHit r.repo r.ref] }) := by
  have stored : Action.store.run w = (.ok w.store, w) := rfl
  have provided : (c.provide remotes r).run w =
      (.ok (), { w with events := w.events ++ [.cacheHit r.repo r.ref] }) := by
    rw [provide, run_bind_ok stored, if_pos held]
    rfl
  exact run_fetch_of_provided parsed provided

/-- Trees that agree at the place of the checkout give the same outcome. -/
theorem outcome_agree (clean : c.dir = e.text)
    (normal : c.checkoutPath r.repo r.ref = d.text)
    (agree : AgreeAt cwd (e.place cwd) (d.place cwd) w.store w'.store) :
    c.outcome remotes text w = c.outcome remotes text w' := by
  rcases (provide_respects clean normal).cases agree with
    ⟨fault, u, u', ran, ran', -⟩ | ⟨done, u, u', ran, ran', agree'⟩
  · rw [outcome_of_error parsed ran, outcome_of_error parsed ran']
  · rw [outcome_of_provided parsed ran, outcome_of_provided parsed ran']
    exact found_agree parsed agree' normal

end Parsed

end Cache

end DawnC
