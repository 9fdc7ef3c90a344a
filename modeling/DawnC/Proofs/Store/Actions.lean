import DawnC.Proofs.Attempt
import DawnC.Proofs.Store.Lookup

set_option autoImplicit false

namespace DawnC

namespace FileAction

open Attempt (run_bind_ok run_bind_error run_tryCatch_ok run_tryCatch_error)

variable {s t : Store} {operation path : String}

theorem run_target_ok {target : Target} (found : s.target path = .ok target) :
    (FileAction.target operation path).run s = (.ok target, s) := by
  rw [FileAction.target, run_bind_ok (Attempt.run_get s), found]
  rfl

theorem run_target_error {reason : FileFault.Reason} (failed : s.target path = .error reason) :
    (FileAction.target operation path).run s = (.error ⟨operation, path, reason⟩, s) := by
  rw [FileAction.target, run_bind_ok (Attempt.run_get s), failed]
  rfl

section Outcomes

variable {parent : Location} {name : String} {slash : Bool}

theorem ensureDirectory_of_error {reason : FileFault.Reason} (failed : s.target path = .error reason) :
    (ensureDirectory path).run s = (.error ⟨"mkdir", path, reason⟩, s) := by
  have absent := Store.find_of_target_error failed
  have making : (makeDirectory path).run s = (.error ⟨"mkdir", path, reason⟩, s) :=
    run_bind_error (run_target_error failed)
  have missing : s.isDirectory path = false := by rw [Store.isDirectory, absent]
  rw [ensureDirectory, run_bind_ok (Attempt.run_get s), absent]
  dsimp only
  rw [run_tryCatch_error making, run_bind_ok (Attempt.run_get s), missing]
  rfl

theorem ensureDirectory_of_directory (found : s.find path = .ok .directory) :
    (ensureDirectory path).run s = (.ok (), s) := by
  rw [ensureDirectory, run_bind_ok (Attempt.run_get s), found]
  rfl

theorem ensureDirectory_of_free (leads : s.target path = .ok (.named parent name slash))
    (free : s.IsFree (parent ++ [name])) :
    (ensureDirectory path).run s = (.ok (), s.insert (parent ++ [name]) .directory) := by
  have absent := Store.find_of_free leads free.1
  have making : (makeDirectory path).run s = (.ok (), s.insert (parent ++ [name]) .directory) := by
    rw [makeDirectory, run_bind_ok (run_target_ok leads)]
    dsimp only
    rw [run_bind_ok (Attempt.run_get s), free.1, if_neg (by decide), run_bind_ok (Attempt.run_get s),
      free.2]
    rfl
  rw [ensureDirectory, run_bind_ok (Attempt.run_get s), absent]
  exact run_tryCatch_ok making

theorem ensureDirectory_of_denied (leads : s.target path = .ok (.named parent name slash))
    (free : s.get? (parent ++ [name]) = none) (denied : (s.rule (parent ++ [name])).unwritable = true) :
    (ensureDirectory path).run s = (.error ⟨"mkdir", path, .denied⟩, s) := by
  have absent := Store.find_of_free leads free
  have making : (makeDirectory path).run s = (.error ⟨"mkdir", path, .denied⟩, s) := by
    rw [makeDirectory, run_bind_ok (run_target_ok leads)]
    dsimp only
    rw [run_bind_ok (Attempt.run_get s), free, if_neg (by decide), run_bind_ok (Attempt.run_get s), denied]
    rfl
  have missing : s.isDirectory path = false := by rw [Store.isDirectory, absent]
  rw [ensureDirectory, run_bind_ok (Attempt.run_get s), absent]
  dsimp only
  rw [run_tryCatch_error making, run_bind_ok (Attempt.run_get s), missing]
  rfl

theorem ensureDirectory_of_file {contents : Bytes} {executable : Bool}
    (leads : s.target path = .ok (.named parent name slash))
    (there : s.get? (parent ++ [name]) = some (.file contents executable)) :
    (ensureDirectory path).run s =
      (.error ⟨"mkdir", path, if slash then .alreadyExists else .notDirectory⟩, s) := by
  cases slash with
  | false =>
      have found : s.find path = .ok (.file contents executable) := by
        rw [Store.find, Store.locate, leads]
        dsimp only [bind, Except.bind]
        rw [there]
        rfl
      rw [ensureDirectory, run_bind_ok (Attempt.run_get s), found]
      rfl
  | true =>
      have found : s.find path = .error .notDirectory := by
        rw [Store.find, Store.locate, leads]
        dsimp only [bind, Except.bind]
        rw [there]
        rfl
      have missing : s.isDirectory path = false := by rw [Store.isDirectory, found]
      have making : (makeDirectory path).run s = (.error ⟨"mkdir", path, .alreadyExists⟩, s) := by
        rw [makeDirectory, run_bind_ok (run_target_ok leads)]
        dsimp only
        rw [run_bind_ok (Attempt.run_get s), there]
        rfl
      rw [ensureDirectory, run_bind_ok (Attempt.run_get s), found]
      dsimp only
      rw [run_tryCatch_error making, run_bind_ok (Attempt.run_get s), missing]
      rfl

end Outcomes

/-- A directory that is not found is made, or the attempt fails for good. -/
theorem ensureDirectory_cases (s : Store) (path : String) :
    (∃ fault, (ensureDirectory path).run s = (.error fault, s)) ∨
      (s.find path = .ok .directory ∧ (ensureDirectory path).run s = (.ok (), s)) ∨
      ∃ parent name slash, s.target path = .ok (.named parent name slash) ∧
        s.IsFree (parent ++ [name]) ∧
        (ensureDirectory path).run s = (.ok (), s.insert (parent ++ [name]) .directory) := by
  cases leads : s.target path with
  | error reason => exact Or.inl ⟨_, ensureDirectory_of_error leads⟩
  | ok target =>
      cases target with
      | self place dots =>
          have found := Store.find_of_self leads
          exact Or.inr (Or.inl ⟨found, ensureDirectory_of_directory found⟩)
      | named parent name slash =>
          cases there : s.get? (parent ++ [name]) with
          | none =>
              cases denied : (s.rule (parent ++ [name])).unwritable with
              | true => exact Or.inl ⟨_, ensureDirectory_of_denied leads there denied⟩
              | false =>
                  have free : s.IsFree (parent ++ [name]) := ⟨there, denied⟩
                  exact Or.inr (Or.inr ⟨parent, name, slash, rfl, free,
                    ensureDirectory_of_free leads free⟩)
          | some entry =>
              cases entry with
              | directory =>
                  have found := Store.find_of_directory leads there
                  exact Or.inr (Or.inl ⟨found, ensureDirectory_of_directory found⟩)
              | file contents executable => exact Or.inl ⟨_, ensureDirectory_of_file leads there⟩

theorem writeFileAs_cases (s : Store) (executable : Bool) (path : String) (contents : Bytes) :
    (∃ fault, (writeFileAs executable path contents).run s = (.error fault, s)) ∨
      ∃ parent name mode, s.target path = .ok (.named parent name false) ∧
        s.get? (parent ++ [name]) ≠ some .directory ∧ (s.rule (parent ++ [name])).unwritable = false ∧
        (mode = executable ∧ s.get? (parent ++ [name]) = none ∨
          ∃ old, s.get? (parent ++ [name]) = some (.file old mode)) ∧
        (writeFileAs executable path contents).run s =
          (.ok (), s.insert (parent ++ [name]) (.file contents mode)) := by
  cases leads : s.target path with
  | error reason => exact Or.inl ⟨_, run_bind_error (run_target_error leads)⟩
  | ok target =>
      cases target with
      | self place dots => exact Or.inl ⟨_, run_bind_ok (run_target_ok leads)⟩
      | named parent name slash =>
          rw [writeFileAs, run_bind_ok (run_target_ok leads)]
          dsimp only
          rw [run_bind_ok (Attempt.run_get s)]
          cases slash with
          | true => exact Or.inl ⟨_, rfl⟩
          | false =>
              by_cases directory : s.get? (parent ++ [name]) = some .directory
              · rw [directory]
                exact Or.inl ⟨_, rfl⟩
              · rw [if_neg (by simp [directory]), run_bind_ok (Attempt.run_get s)]
                cases denied : (s.rule (parent ++ [name])).unwritable with
                | true => exact Or.inl ⟨_, rfl⟩
                | false =>
                    rw [if_neg (by decide), run_bind_ok (Attempt.run_get s)]
                    cases there : s.get? (parent ++ [name]) with
                    | none =>
                        exact Or.inr ⟨parent, name, executable, rfl, by simp [there], denied,
                          Or.inl ⟨rfl, there⟩, rfl⟩
                    | some entry =>
                        cases entry with
                        | directory => exact absurd there directory
                        | file old mode =>
                            exact Or.inr ⟨parent, name, mode, rfl, by simp [there], denied,
                              Or.inr ⟨old, there⟩, rfl⟩

/-- Something that can be removed is at a place: a file, named as one, or a directory with nothing in
it. -/
def Removable (s : Store) (path : String) (place : Location) : Prop :=
  ∃ parent name slash, s.target path = .ok (.named parent name slash) ∧ place = parent ++ [name] ∧
    (s.rule place).stays = false ∧
    ((slash = false ∧ ∃ contents executable, s.get? place = some (.file contents executable)) ∨
      s.get? place = some .directory ∧ (s.children place).isEmpty = true)

theorem remove_cases (s : Store) (path : String) :
    (∃ fault, (remove path).run s = (.error fault, s)) ∨
      ∃ place, Removable s path place ∧ (remove path).run s = (.ok (), s.erase place) := by
  cases leads : s.target path with
  | error reason => exact Or.inl ⟨_, run_bind_error (run_target_error leads)⟩
  | ok target =>
      cases target with
      | self place dots =>
          cases dots with
          | root => exact Or.inl ⟨_, run_bind_ok (run_target_ok leads)⟩
          | here => exact Or.inl ⟨_, run_bind_ok (run_target_ok leads)⟩
          | above => exact Or.inl ⟨_, run_bind_ok (run_target_ok leads)⟩
      | named parent name slash =>
          rw [remove, run_bind_ok (run_target_ok leads)]
          dsimp only
          rw [run_bind_ok (Attempt.run_get s)]
          cases there : s.get? (parent ++ [name]) with
          | none => exact Or.inl ⟨_, rfl⟩
          | some entry =>
              dsimp only
              rw [run_bind_ok (Attempt.run_get s)]
              cases denied : (s.rule (parent ++ [name])).stays with
              | true => exact Or.inl ⟨_, rfl⟩
              | false =>
                  rw [if_neg (by decide)]
                  cases entry with
                  | file contents executable =>
                      cases slash with
                      | true => exact Or.inl ⟨_, rfl⟩
                      | false =>
                          exact Or.inr ⟨_, ⟨parent, name, false, leads, rfl, denied,
                            Or.inl ⟨rfl, contents, executable, there⟩⟩, rfl⟩
                  | directory =>
                      dsimp only
                      rw [run_bind_ok (Attempt.run_get s)]
                      by_cases empty : (s.children (parent ++ [name])).isEmpty = true
                      · rw [if_pos empty]
                        exact Or.inr ⟨_, ⟨parent, name, slash, leads, rfl, denied, Or.inr ⟨there, empty⟩⟩,
                          rfl⟩
                      · rw [if_neg empty]
                        exact Or.inl ⟨_, rfl⟩

theorem remove_of_file {contents : Bytes} {executable : Bool}
    (found : s.find path = .ok (.file contents executable))
    (released : (s.rule (Path.place s.cwd path)).stays = false) :
    ∃ parent name, s.target path = .ok (.named parent name false) ∧
      (remove path).run s = (.ok (), s.erase (parent ++ [name])) := by
  obtain ⟨parent, name, leads, there⟩ := Store.target_of_find_file found
  refine ⟨parent, name, leads, ?_⟩
  rw [Store.target_named leads] at released
  rw [remove, run_bind_ok (run_target_ok leads)]
  dsimp only
  rw [run_bind_ok (Attempt.run_get s), there]
  dsimp only
  rw [run_bind_ok (Attempt.run_get s), released]
  rfl

theorem remove_of_kept {parent : Location} {name : String} {slash : Bool} {entry : Entry}
    (leads : s.target path = .ok (.named parent name slash))
    (there : s.get? (parent ++ [name]) = some entry)
    (kept : (s.rule (parent ++ [name])).stays = true) :
    (remove path).run s = (.error ⟨"remove", path, .denied⟩, s) := by
  rw [remove, run_bind_ok (run_target_ok leads)]
  dsimp only
  rw [run_bind_ok (Attempt.run_get s), there]
  dsimp only
  rw [run_bind_ok (Attempt.run_get s), kept]
  rfl

theorem removeIfExists_cases (s : Store) (path : String) :
    (∃ result, (removeIfExists path).run s = (result, s)) ∨
      ∃ place, Removable s path place ∧ (removeIfExists path).run s = (.ok (), s.erase place) := by
  rcases remove_cases s path with ⟨fault, failed⟩ | ⟨place, removable, removed⟩
  · rw [removeIfExists, run_tryCatch_error failed]
    left
    split
    · exact ⟨_, rfl⟩
    · exact ⟨_, rfl⟩
  · exact Or.inr ⟨place, removable, run_tryCatch_ok removed⟩

/-- All that can be removed is, and it is a success if that is all. -/
theorem run_removeEntry (s : Store) (place : Location) (path : String) {name : String} (noNul : '\x00' ∉ name.toList)
    (short : name.utf8ByteSize ≤ nameLimit) :
    ∃ result, (removeEntry place path name).run s = (result, s.eraseTree (place ++ [name])) ∧
      (result = .ok () ↔ s.stuckBelow (place ++ [name]) = []) := by
  rw [removeEntry, if_neg (by simpa using noNul), if_neg (Nat.not_lt.mpr short),
    run_bind_ok (Attempt.run_get s), run_bind_ok (Attempt.run_modify _ s)]
  cases s.stuckBelow (place ++ [name]) with
  | nil => exact ⟨_, rfl, by simp⟩
  | cons first rest => exact ⟨_, rfl, by simp⟩

/-- A whole tree goes only by its name in the directory that its path lies in. -/
theorem removeTree_cases (s : Store) (path : String) :
    (∃ result, (removeTree path).run s = (result, s)) ∨
      (∃ place, Removable s path place ∧ (removeTree path).run s = (.ok (), s.erase place)) ∨
      ∃ place result, s.locate (splitLast path).1 = .ok (place, .directory) ∧
        (removeTree path).run s = (result, s.eraseTree (place ++ [(splitLast path).2])) := by
  by_cases empty : path = ""
  · rw [removeTree, if_pos empty]
    exact Or.inl ⟨_, rfl⟩
  · rw [removeTree, if_neg empty]
    by_cases dot : (path = "." || (Path.elements path).getLast? = some ".") = true
    · rw [if_pos dot]
      exact Or.inl ⟨_, rfl⟩
    · rw [if_neg dot]
      rcases remove_cases s path with ⟨fault, failed⟩ | ⟨place, removable, removed⟩
      · rw [run_tryCatch_error failed]
        by_cases missing : fault.reason = .notFound
        · rw [if_pos missing]
          exact Or.inl ⟨_, rfl⟩
        · rw [if_neg missing]
          rcases splitLast path with ⟨parent, name⟩
          dsimp only
          rw [run_bind_ok (Attempt.run_get s)]
          cases located : s.locate parent with
          | error reason =>
              left
              split
              · exact ⟨_, rfl⟩
              · exact ⟨_, rfl⟩
              · rename_i impossible
                cases impossible
              · rename_i impossible
                cases impossible
          | ok found =>
              obtain ⟨place, entry⟩ := found
              cases entry with
              | file contents executable => exact Or.inl ⟨_, rfl⟩
              | directory =>
                  dsimp only
                  by_cases nul : name.toList.contains '\x00' = true
                  · rw [removeEntry, if_pos nul]
                    exact Or.inl ⟨_, rfl⟩
                  · by_cases long : nameLimit < name.utf8ByteSize
                    · rw [removeEntry, if_neg nul, if_pos long]
                      exact Or.inl ⟨_, rfl⟩
                    · obtain ⟨result, ran, -⟩ := run_removeEntry s place (parent ++ "/" ++ name)
                        (by simpa using nul) (Nat.not_lt.mp long)
                      exact Or.inr (Or.inr ⟨place, result, rfl, ran⟩)
      · exact Or.inr (Or.inl ⟨place, removable, run_tryCatch_ok removed⟩)

/-- A file goes from its place to a place where no directory is. -/
theorem rename_cases (s : Store) (source destination : String) :
    (∃ fault, (rename source destination).run s = (.error fault, s)) ∨
      ∃ parent name slash parent' name' contents executable,
        s.target source = .ok (.named parent name slash) ∧
        s.target destination = .ok (.named parent' name' false) ∧
        s.get? (parent ++ [name]) = some (.file contents executable) ∧
        s.get? (parent' ++ [name']) ≠ some .directory ∧
        (rename source destination).run s = (.ok (),
          (s.erase (parent ++ [name])).insert (parent' ++ [name']) (.file contents executable)) := by
  cases leads : s.target source with
  | error reason => exact Or.inl ⟨_, run_bind_error (run_target_error leads)⟩
  | ok target =>
      cases target with
      | self place dots => exact Or.inl ⟨_, run_bind_ok (run_target_ok leads)⟩
      | named parent name slash =>
          rw [rename, run_bind_ok (run_target_ok leads)]
          dsimp only
          rw [run_bind_ok (Attempt.run_get s)]
          cases leads' : s.target destination with
          | error reason =>
              rw [run_bind_error (run_target_error leads')]
              exact Or.inl ⟨_, rfl⟩
          | ok target =>
              rw [run_bind_ok (run_target_ok leads')]
              cases there : s.get? (parent ++ [name]) with
              | none => exact Or.inl ⟨_, rfl⟩
              | some entry =>
                  cases entry with
                  | directory => exact Or.inl ⟨_, rfl⟩
                  | file contents executable =>
                      cases target with
                      | self place dots => exact Or.inl ⟨_, rfl⟩
                      | named parent' name' slash' =>
                          dsimp only
                          cases slash' with
                          | true => exact Or.inl ⟨_, rfl⟩
                          | false =>
                              rw [if_neg (by decide), run_bind_ok (Attempt.run_get s)]
                              by_cases blocked : s.get? (parent' ++ [name']) = some .directory
                              · rw [if_pos blocked]
                                exact Or.inl ⟨_, rfl⟩
                              · rw [if_neg blocked]
                                split
                                · exact Or.inl ⟨_, rfl⟩
                                · split
                                  · exact Or.inl ⟨_, rfl⟩
                                  · exact Or.inr ⟨parent, name, slash, parent', name', contents,
                                      executable, rfl, rfl, there, blocked, rfl⟩

end FileAction

end DawnC
