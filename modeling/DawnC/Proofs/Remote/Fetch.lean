import DawnC.Proofs.Remote.Checkout

set_option autoImplicit false

namespace DawnC

namespace Cache

open Attempt (Sustains run_bind_ok run_bind_error run_tryCatch_ok run_tryCatch_error)
open Store (Changes Grows)
open DawnC.Path (Normal)

variable {c : Cache} {remotes : Remotes} {r : Reference} {cwd : Location} {w : World}

/-- Sees to it that the checkout of a reference is in the cache. -/
def provide (c : Cache) (remotes : Remotes) (r : Reference) : Action Unit := do
  if c.holds (← Action.store) r.repo r.ref then
    Action.tell (.cacheHit r.repo r.ref)
  else
    Action.within "failed to create cache directories" (Action.files c.ensure)
    Action.within "failed to create temp directory" (Action.ofExcept remotes.room)
    Action.tell (.cloning r.url r.ref)
    let repository ←
      Action.within ("failed to clone repository " ++ r.url) (Action.ofExcept (remotes.clone r.url))
    let files ←
      Action.within ("failed to checkout version " ++ r.ref) (Action.ofExcept (repository.checkout r.ref))
    Action.within "failed to store in cache"
      (c.storeTree (fun _ => files.toStore) r.repo r.ref "/")

/-- A fetch provides the checkout and finds the file in it. -/
theorem fetch_of_parse {text : String} (parsed : Reference.parse text = .ok r) :
    c.fetch remotes text = (do
      c.provide remotes r
      Action.ofExcept ((c.resolve (← Action.store) r).mapError .cache)) := by
  rw [fetch, parsed, provide]
  simp only [bind_assoc]
  congr 1
  funext s
  split
  · rfl
  · simp only [bind_assoc]

/-- The checkout is there; or the cache's directory is all that was made; or a checkout is stored. -/
theorem provide_cases (c : Cache) (remotes : Remotes) (r : Reference) (w : World) :
    (c.holds w.store r.repo r.ref = true ∧ ∃ events,
      (c.provide remotes r).run w = (.ok (), { w with events })) ∨
    c.holds w.store r.repo r.ref = false ∧
      ((∃ fault events, (c.provide remotes r).run w =
        (.error fault, ⟨(c.ensure.run w.store).2, events⟩)) ∨
      ∃ s repository files events, c.ensure.run w.store = (.ok (), s) ∧
        remotes.clone r.url = .ok repository ∧ repository.checkout r.ref = .ok files ∧
        (c.provide remotes r).run w =
          (Action.within "failed to store in cache"
            (c.storeTree (fun _ => files.toStore) r.repo r.ref "/")).run ⟨s, events⟩) := by
  have stored : Action.store.run w = (.ok w.store, w) := rfl
  rw [provide, run_bind_ok stored]
  cases held : c.holds w.store r.repo r.ref with
  | true => exact Or.inl ⟨rfl, _, rfl⟩
  | false =>
      refine Or.inr ⟨rfl, ?_⟩
      rw [if_neg (by decide)]
      rcases ensured : c.ensure.run w.store with ⟨fault | done, s⟩
      · have failed : (Action.within "failed to create cache directories"
            (Action.files c.ensure)).run w = (.error _, { w with store := s }) :=
          run_tryCatch_error (Action.run_files ensured)
        exact Or.inl ⟨_, w.events, run_bind_error failed⟩
      · have made : (Action.within "failed to create cache directories"
            (Action.files c.ensure)).run w = (.ok (), { w with store := s }) :=
          run_tryCatch_ok (Action.run_files ensured)
        have given {α : Type} (context : String) (a : α) (w : World) :
            (Action.within context (Action.ofExcept (.ok a))).run w = (.ok a, w) := rfl
        have told (w : World) (event : Event) :
            (Action.tell event).run w = (.ok (), ⟨w.store, w.events ++ [event]⟩) := rfl
        rw [run_bind_ok made]
        cases remotes.room with
        | error fault => exact Or.inl ⟨_, _, rfl⟩
        | ok done =>
            rw [run_bind_ok (given _ _ _), run_bind_ok (told _ _)]
            cases cloned : remotes.clone r.url with
            | error fault => exact Or.inl ⟨_, _, rfl⟩
            | ok repository =>
                rw [run_bind_ok (given _ _ _)]
                cases found : repository.checkout r.ref with
                | error fault => exact Or.inl ⟨_, _, rfl⟩
                | ok files =>
                    rw [run_bind_ok (given _ _ _)]
                    exact Or.inr ⟨s, repository, files, _, rfl, rfl, found, rfl⟩

variable {R : Store → Store → Prop} [IsPreorder Store R]

theorem provide_sustains (ensured : Sustains R c.ensure)
    (stored : ∀ files : Checkout,
      Sustains (World.OnStore R) (c.storeTree (fun _ => files.toStore) r.repo r.ref "/")) :
    Sustains (World.OnStore R) (c.provide remotes r) := by
  intro w
  rcases provide_cases c remotes r w with ⟨-, events, ran⟩ | ⟨-, ⟨fault, events, ran⟩ |
    ⟨s, repository, files, events, made, -, -, ran⟩⟩
  · rw [ran]
    exact refl_of R w.store
  · rw [ran]
    exact ensured w.store
  · rw [ran]
    exact trans_of R (ensured.of_run made)
      (Action.sustains_within _ (stored files) ⟨s, events⟩)

/-- What is done to the files is done to provide checkouts. -/
theorem fetch_sustains (provided : ∀ r, Sustains (World.OnStore R) (c.provide remotes r))
    (text : String) : Sustains (World.OnStore R) (c.fetch remotes text) := by
  cases parsed : Reference.parse text with
  | error fault =>
      rw [fetch, parsed]
      exact .throw _
  | ok r =>
      rw [fetch_of_parse parsed]
      exact .bind (provided r) fun _ => .bind Action.sustains_store fun _ =>
        Action.sustains_ofExcept _

theorem exists_checkoutPath (c : Cache) (repo ref : String) :
    ∃ d : Normal, c.checkoutPath repo ref = d.text ∧
      (c.dir ≠ "" → d.rooted = Path.isAbsolute c.dir) := by
  apply Path.exists_normal_join
  intro empty
  have marked : '@' ∈ (repo ++ "@" ++ ref).toList := by simp
  rw [empty] at marked
  cases marked

variable {d : Normal}

theorem holds_iff {s : Store} (tree : s.TreeAt cwd) (normal : c.checkoutPath r.repo r.ref = d.text) :
    c.holds s r.repo r.ref = true ↔ d.IsUsable ∧ s.sees d = some .directory := by
  rw [holds, normal, tree.isDirectory_text]

/-- Providing a checkout changes what is at its place and below. -/
theorem provide_changes {makes : Location → Prop}
    (normal : c.checkoutPath r.repo r.ref = d.text)
    (ensured : Sustains (Changes cwd makes (d.place cwd <+: ·)) c.ensure)
    (made : ∀ place, place <+: d.place cwd → makes place) :
    Sustains (World.OnStore (Changes cwd makes (d.place cwd <+: ·))) (c.provide remotes r) := by
  apply provide_sustains ensured
  intro files w
  exact (storeTree_changes normal w).mono made fun _ touched => touched

section Storing

variable {view : Store → Store} {repo ref source : String} {s : Store}

theorem storeTree_of_failed {fault : FileFault}
    (failed : (FileAction.makeDirectories (c.checkoutPath repo ref)).run w.store = (.error fault, s)) :
    (c.storeTree view repo ref source).run w =
      (.error (.wrap "failed to create cache directory" (.file fault)), { w with store := s }) :=
  run_bind_error (run_tryCatch_error (Action.run_files failed))

theorem storeTree_of_made
    (made : (FileAction.makeDirectories (c.checkoutPath repo ref)).run w.store = (.ok (), s)) :
    (c.storeTree view repo ref source).run w =
      (Action.files (fill view (c.checkoutPath repo ref) source)).run { w with store := s } :=
  run_bind_ok (run_tryCatch_ok (Action.run_files made))

/-- The checkout's directory cannot be made, or it is there in the end. -/
theorem storeTree_cases (view : Store → Store) (source : String) (w : World)
    (normal : c.checkoutPath repo ref = d.text) (tree : w.store.TreeAt cwd) :
    (∃ fault s, (FileAction.makeDirectories d.text).run w.store = (.error fault, s) ∧
      (c.storeTree view repo ref source).run w =
        (.error (.wrap "failed to create cache directory" (.file fault)), { w with store := s })) ∨
    d.IsUsable ∧ ((c.storeTree view repo ref source).run w).2.store.sees d = some .directory := by
  rcases making : (FileAction.makeDirectories d.text).run w.store with ⟨fault | done, s⟩
  · exact Or.inl ⟨fault, s, rfl, storeTree_of_failed (normal ▸ making)⟩
  · right
    obtain ⟨usable, directory⟩ := FileAction.directory_of_makeDirectories tree making
    have tree' := (FileAction.makeDirectories_grows.of_run making tree).1
    have filled : Sustains (World.OnStore (Store.KeepsDirectories cwd))
        (Action.files (fill view d.text source)) :=
      Action.sustains_files (fill_keepsDirectories view d.text source)
    rw [storeTree_of_made (normal ▸ making), normal]
    exact ⟨usable, (filled { w with store := s }).sees tree' directory⟩

end Storing

/-- A checkout whose place is taken cannot be stored: its directory cannot be made. -/
theorem not_makeDirectories_of_taken {s s' t : Store} (tree : s.TreeAt cwd)
    (normal : c.checkoutPath r.repo r.ref = d.text)
    (missing : c.holds s r.repo r.ref = false) (taken : s.get? (d.place cwd) ≠ none)
    (ensured : c.ensure.run s = (.ok (), s')) :
    (FileAction.makeDirectories d.text).run s' ≠ (.ok (), t) := by
  intro ran
  have grown : Sustains (Grows cwd) c.ensure := FileAction.makeDirectories_grows
  have tree' := (grown.of_run ensured tree).1
  have grows := trans_of (Grows cwd) (grown.of_run ensured)
    (FileAction.makeDirectories_grows.of_run ran)
  obtain ⟨usable, directory⟩ := FileAction.directory_of_makeDirectories tree' ran
  -- the path can be used, so what was there before is no directory
  have noDirectory : s.sees d ≠ some .directory := by
    intro found
    rw [(holds_iff tree normal).mpr ⟨usable, found⟩] at missing
    cases missing
  have down : d.names ≠ [] := fun level => noDirectory (Store.sees_level level)
  rw [tree.sees_down down] at noDirectory
  obtain ⟨entry, found⟩ := Option.ne_none_iff_exists'.mp taken
  have kept := grows.kept tree found
  rw [(grows tree).1.sees_down down, kept, Option.some.injEq] at directory
  exact noDirectory (directory ▸ found)

/-- Providing a checkout changes nothing that is there. -/
theorem provide_grows : Sustains (World.OnStore (Grows cwd)) (c.provide remotes r) := by
  intro w tree
  obtain ⟨d, normal, -⟩ := c.exists_checkoutPath r.repo r.ref
  have ensured : Sustains (Grows cwd) c.ensure := FileAction.makeDirectories_grows
  by_cases taken : w.store.get? (d.place cwd) = none
  · have changes : Sustains (World.OnStore (Changes cwd (fun _ => True) (d.place cwd <+: ·)))
        (c.provide remotes r) :=
      provide_changes normal (FileAction.makeDirectories_changes fun _ => trivial)
        fun _ _ => trivial
    refine (changes w).grows ?_ tree
    intro tree place below
    by_cases here : d.place cwd = place
    · rwa [← here]
    · exact Store.none_below (by rw [taken]; simp) below here
  · rcases provide_cases c remotes r w with ⟨-, events, ran⟩ | ⟨missing, ⟨fault, events, ran⟩ |
      ⟨s, repository, files, events, made, -, -, ran⟩⟩
    · rw [ran]
      exact refl_of (Grows cwd) w.store tree
    · rw [ran]
      exact ensured w.store tree
    · rcases making : (FileAction.makeDirectories d.text).run s with ⟨fault | done, t⟩
      · rw [← normal] at making
        have ends : (Action.within "failed to store in cache"
            (c.storeTree (fun _ => files.toStore) r.repo r.ref "/")).run ⟨s, events⟩ =
              (.error _, ⟨t, events⟩) := run_tryCatch_error (storeTree_of_failed making)
        rw [ran, ends]
        exact trans_of (Grows cwd) (ensured.of_run made)
          (FileAction.makeDirectories_grows.of_run making) tree
      · exact absurd making (not_makeDirectories_of_taken tree normal missing taken made)

end Cache

end DawnC
