import DawnC.Proofs.Store.Directories
import DawnC.Remote.Fetcher

set_option autoImplicit false

namespace DawnC

namespace Cache

open Attempt (Sustains)

variable {v : Store} {R : Store → Store → Prop}

theorem isName_of_namesAt {path name : String} {names : List String} (listed : namesAt v path = .ok names)
    (member : name ∈ names) : Path.IsName name := by
  rw [namesAt] at listed
  split at listed
  · split at listed
    · cases listed
    · cases listed
      obtain ⟨entry, found⟩ := Option.isSome_iff_exists.mp (Store.mem_children.mp member)
      exact (Store.usable_of_get? found name (by simp)).1
  · cases listed
    cases member

section Names

variable {α : Type} {path : String} {names : List String} {fault : FileFault}
  {f : List String → FileAction α}

theorem readNames_bind_ok (listed : namesAt v path = .ok names) :
    (readNames (fun _ => v) path >>= f) = (get >>= fun _ => f names) := by
  funext s
  change (readNames (fun _ => v) path >>= f).run s = (get >>= fun _ => f names : FileAction α).run s
  have read : (readNames (fun _ => v) path).run s = (.ok names, s) := by
    rw [readNames, Attempt.run_bind_ok (Attempt.run_get s), listed]
    rfl
  rw [Attempt.run_bind_ok read, Attempt.run_bind_ok (Attempt.run_get s)]

theorem readNames_bind_error (failed : namesAt v path = .error fault) :
    (readNames (fun _ => v) path >>= f) = throw fault := by
  funext s
  change (readNames (fun _ => v) path >>= f).run s = _
  have read : (readNames (fun _ => v) path).run s = (.error fault, s) := by
    rw [readNames, Attempt.run_bind_ok (Attempt.run_get s), failed]
    rfl
  rw [Attempt.run_bind_error read]
  rfl

end Names

variable {C : (α : Type) → FileAction α → Prop}

/-- What holds of making directories and writing files holds of copying a file. -/
theorem copyFile_closed (closed : Attempt.Closed C) {destination relative : String}
    (made : C Unit (FileAction.makeDirectories (Path.directory (Path.join [destination, relative]))))
    (written : ∀ contents, C Unit (FileAction.writeFile (Path.join [destination, relative]) contents))
    (path : String) : C Unit (copyFile (fun _ => v) destination path relative) := by
  rw [copyFile]
  split
  · apply closed.bind made
    intro _
    apply closed.look
    split
    · exact closed.throw _
    · exact written _
  · exact closed.pure ()

/-- What holds of copying a file holds of the walk; `P` holds of every path that is come to. -/
theorem copyBelow_closed (closed : Attempt.Closed C) {destination : String}
    {P : String → String → Prop}
    (down : ∀ path relative name, P path relative → Path.IsName name →
      P (Path.join [path, name]) (Path.join [relative, name]))
    (each : ∀ path relative name, P path relative → Path.IsName name →
      C Unit (copyFile (fun _ => v) destination (Path.join [path, name])
        (Path.join [relative, name])))
    (depth : Nat) {path relative : String} (start : P path relative) :
    C Unit (copyBelow (fun _ => v) destination depth path relative) := by
  induction depth generalizing path relative with
  | zero => exact closed.pure ()
  | succ depth ih =>
      rw [copyBelow]
      cases listed : namesAt v path with
      | error fault =>
          rw [readNames_bind_error listed]
          exact closed.throw fault
      | ok names =>
          rw [readNames_bind_ok listed]
          apply closed.look
          apply closed.forM
          intro name member
          have isName := isName_of_namesAt listed member
          apply closed.look
          split
          · exact closed.throw _
          · split
            · cases hidden : namesAt v (Path.join [path, name]) with
              | error fault =>
                  rw [readNames_bind_error hidden]
                  exact closed.throw fault
              | ok names' =>
                  rw [readNames_bind_ok hidden]
                  exact closed.look (closed.pure ())
            · exact ih (down path relative name start isName)
          · exact each path relative name start isName

/-- The tree of a checkout has a root, and all that is below it is copied. -/
theorem storeTree_eq (c : Cache) (repo ref : String) :
    c.storeTree (fun _ => v) repo ref "/" =
      (Action.within "failed to create cache directory"
        (Action.files (FileAction.makeDirectories (c.checkoutPath repo ref))) >>= fun _ =>
          Action.files (copyBelow (fun _ => v) (c.checkoutPath repo ref) pathLimit "/" ".")) := rfl

theorem storeTree_sustains [IsPreorder Store R] {c : Cache} {repo ref : String}
    (made : Sustains R (FileAction.makeDirectories (c.checkoutPath repo ref)))
    (copied : Sustains R (copyBelow (fun _ => v) (c.checkoutPath repo ref) pathLimit "/" ".")) :
    Sustains (World.OnStore R) (c.storeTree (fun _ => v) repo ref "/") := by
  rw [storeTree_eq]
  exact .bind (Action.sustains_within _ (Action.sustains_files made)) fun _ =>
    Action.sustains_files copied

section Directories

variable {cwd : Location} (view : Store → Store) (destination path relative : String)

theorem makeDirectories_keepsDirectories :
    Sustains (Store.KeepsDirectories cwd) (FileAction.makeDirectories path) :=
  fun s => (FileAction.makeDirectories_grows s).keepsDirectories

theorem copyFile_keepsDirectories :
    Sustains (Store.KeepsDirectories cwd) (copyFile view destination path relative) := by
  rw [copyFile]
  split
  · apply Sustains.bind (makeDirectories_keepsDirectories _)
    intro _
    apply Sustains.look
    intro s
    split
    · exact .throw _
    · exact FileAction.writeFileAs_keepsDirectories false _
  · exact .pure ()

theorem readNames_sustains [IsPreorder Store R] : Sustains R (readNames view path) := by
  apply Sustains.look
  intro s
  split
  · exact .throw _
  · exact .pure _

theorem copyBelow_keepsDirectories (depth : Nat) :
    Sustains (Store.KeepsDirectories cwd) (copyBelow view destination depth path relative) := by
  induction depth generalizing path relative with
  | zero => exact .pure ()
  | succ depth ih =>
      rw [copyBelow]
      refine Sustains.bind (readNames_sustains view path) ?_
      intro names
      apply Sustains.forM
      intro name _
      apply Sustains.look
      intro s
      split
      · exact .throw _
      · split
        · exact .bind (readNames_sustains view _) fun _ => .pure ()
        · exact ih _ _
      · exact copyFile_keepsDirectories view destination _ _

/-- Copies a tree to its destination, when that is there. -/
def fill (view : Store → Store) (destination source : String) : FileAction Unit := do
  match (view (← get)).find source with
  | .error reason => throw ⟨"lstat", source, reason⟩
  | .ok .directory => copyBelow view destination pathLimit source "."
  | .ok (.file ..) => copyFile view destination source "."

theorem fill_keepsDirectories (source : String) :
    Sustains (Store.KeepsDirectories cwd) (fill view destination source) := by
  apply Sustains.look
  intro s
  split
  · exact .throw _
  · exact copyBelow_keepsDirectories view destination _ _ _
  · exact copyFile_keepsDirectories view destination _ _

theorem storeTree_eq_fill (c : Cache) (repo ref source : String) :
    c.storeTree view repo ref source =
      (Action.within "failed to create cache directory"
        (Action.files (FileAction.makeDirectories (c.checkoutPath repo ref))) >>= fun _ =>
          Action.files (fill view (c.checkoutPath repo ref) source)) := rfl

theorem storeTree_keepsDirectories (c : Cache) (repo ref source : String) :
    Sustains (World.OnStore (Store.KeepsDirectories cwd)) (c.storeTree view repo ref source) := by
  rw [storeTree_eq_fill]
  exact .bind (Action.sustains_within _ (Action.sustains_files (makeDirectories_keepsDirectories _)))
    fun _ => Action.sustains_files (fill_keepsDirectories view _ _)

end Directories

end Cache

namespace Cache

open Attempt (Sustains)
open Store (Changes)
open DawnC.Path (Normal IsName)

variable {v : Store} {cwd : Location} {d : Normal}

/-- The walk comes to the paths of names from the root, and to the same names below where it copies to. -/
def Walked (path relative : String) : Prop :=
  ∃ (names : List String) (valid : ∀ name ∈ names, IsName name),
    path = (Normal.fromRoot names valid).text ∧ relative = (Normal.below names valid).text

theorem Walked.start : Walked "/" "." :=
  ⟨[], fun _ member => absurd member List.not_mem_nil, by decide, by decide⟩

theorem Walked.join {path relative name : String} (walked : Walked path relative)
    (isName : IsName name) :
    ∃ (init : List String) (valid : ∀ e ∈ init ++ [name], IsName e),
      Path.join [path, name] = (Normal.fromRoot (init ++ [name]) valid).text ∧
      Path.join [relative, name] = (Normal.below (init ++ [name]) valid).text := by
  obtain ⟨init, valid, rfl, rfl⟩ := walked
  have valid' : ∀ e ∈ init ++ [name], IsName e := by
    intro e member
    rcases List.mem_append.mp member with old | new
    · exact valid e old
    · rw [List.mem_singleton.mp new]
      exact isName
  refine ⟨init, valid', ?_, ?_⟩
  · rw [Normal.join_name _ isName]
    rfl
  · rw [Normal.join_name _ isName]
    rfl

theorem copyFile_changes {init : List String} {name : String}
    (valid : ∀ e ∈ init ++ [name], IsName e) (path : String) :
    Sustains (Changes cwd (· <+: d.place cwd) (d.place cwd <+: ·))
      (copyFile (fun _ => v) d.text path (Normal.below (init ++ [name]) valid).text) := by
  refine copyFile_closed Sustains.closed ?_ ?_ path
  · rw [Normal.join_text, Normal.directory_under]
    apply FileAction.makeDirectories_text_changes
    intro place above
    rw [Normal.place_under] at above
    exact List.prefix_or_prefix_of_prefix above (List.prefix_append _ _)
  · intro contents
    apply FileAction.writeFileAs_changes
    rw [Normal.join_text, Normal.place_text, Normal.place_under]
    exact List.prefix_append _ _

/-- The walk copies files from places to places with the same names. -/
theorem copyBelow_root_closed {C : (α : Type) → FileAction α → Prop} (closed : Attempt.Closed C)
    {destination : String}
    (each : ∀ init name (valid : ∀ e ∈ init ++ [name], IsName e) path,
      C Unit (copyFile (fun _ => v) destination path (Normal.below (init ++ [name]) valid).text)) :
    C Unit (copyBelow (fun _ => v) destination pathLimit "/" ".") := by
  refine copyBelow_closed closed (P := Walked) ?_ ?_ pathLimit .start
  · intro path relative name walked isName
    obtain ⟨init, valid, same, same'⟩ := walked.join isName
    exact ⟨init ++ [name], valid, same, same'⟩
  · intro path relative name walked isName
    obtain ⟨init, valid, -, same⟩ := walked.join isName
    rw [same]
    exact each init name valid _

/-- Storing a checkout changes its directory and what is below, and makes the directories above. -/
theorem storeTree_changes {c : Cache} {repo ref : String}
    (normal : c.checkoutPath repo ref = d.text) :
    Sustains (World.OnStore (Changes cwd (· <+: d.place cwd) (d.place cwd <+: ·)))
      (c.storeTree (fun _ => v) repo ref "/") := by
  apply storeTree_sustains
  · rw [normal]
    exact FileAction.makeDirectories_text_changes fun place above => Or.inl above
  · rw [normal]
    exact copyBelow_root_closed Sustains.closed fun _ _ valid path => copyFile_changes valid path

end Cache

end DawnC
