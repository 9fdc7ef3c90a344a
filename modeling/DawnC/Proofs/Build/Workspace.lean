import DawnC.Proofs.Build.Effects
import DawnC.Proofs.Store.Clearing

set_option autoImplicit false

namespace DawnC

def isHexDigit (c : Char) : Bool := "0123456789abcdef".toList.contains c

theorem isHexDigit_of_mem_toDigits {n : Nat} {c : Char} (member : c ∈ Nat.toDigits 16 n) :
    isHexDigit c = true := by
  have single : ∀ k < 16, isHexDigit k.digitChar = true := by decide
  induction n using Nat.strongRecOn with
  | ind n ih =>
    by_cases small : n < 16
    · rw [Nat.toDigits_of_lt_base small, List.mem_singleton] at member
      rw [member]
      exact single n small
    · rw [Nat.toDigits_of_base_le (by decide) (Nat.le_of_not_lt small), List.mem_append,
        List.mem_singleton] at member
      rcases member with higher | last
      · exact ih (n / 16) (by omega) higher
      · rw [last]
        exact single (n % 16) (Nat.mod_lt n (by decide))

theorem isHexDigit_of_mem_hexDigits {width n : Nat} {c : Char} (member : c ∈ Text.hexDigits width n) :
    isHexDigit c = true := by
  rcases List.mem_append.mp member with filled | digit
  · rw [List.eq_of_mem_replicate filled]
    decide
  · exact isHexDigit_of_mem_toDigits digit

theorem hexHash_ne_nil (message : Bytes) : Sha256.hexHash message ≠ [] := by
  obtain ⟨first, rest, bytes⟩ : ∃ first rest, Sha256.hash message = first :: rest := ⟨_, _, rfl⟩
  rw [Sha256.hexHash, bytes, List.flatMap_cons]
  refine List.append_ne_nil_of_left_ne_nil ?_ _
  exact List.append_ne_nil_of_right_ne_nil _ Nat.toDigits_ne_nil

theorem isHexDigit_of_mem_hexHash {message : Bytes} {c : Char} (member : c ∈ Sha256.hexHash message) :
    isHexDigit c = true := by
  obtain ⟨byte, -, inside⟩ := List.mem_flatMap.mp member
  exact isHexDigit_of_mem_hexDigits inside

theorem size_ofList_le (chars : List Char) : (String.ofList chars).utf8ByteSize ≤ 4 * chars.length := by
  induction chars with
  | nil => exact Nat.le_refl _
  | cons c rest ih =>
      have bound := c.utf8Size_le_four
      rw [String.ofList_cons, String.utf8ByteSize_append, String.utf8ByteSize_singleton, List.length_cons]
      omega

/-- A workspace can be made under its name. -/
theorem shortHash_isUsableName (key : String) : IsUsableName (shortHash key) := by
  have digits : ∀ c ∈ (shortHash key).toList, isHexDigit c = true := by
    intro c member
    rw [shortHash, String.toList_ofList] at member
    exact isHexDigit_of_mem_hexHash (List.mem_of_mem_take member)
  have without {c : Char} (other : isHexDigit c = false) : c ∉ (shortHash key).toList := by
    intro member
    rw [digits c member] at other
    cases other
  refine ⟨⟨?_, ?_, ?_, without (by decide)⟩, without (by decide), ?_⟩
  · rw [shortHash, ne_eq, String.ofList_eq_empty_iff, List.take_eq_nil_iff, not_or]
    exact ⟨by decide, hexHash_ne_nil _⟩
  · intro dot
    exact without (show isHexDigit '.' = false by decide) (by rw [dot]; decide)
  · intro dots
    exact without (show isHexDigit '.' = false by decide) (by rw [dots]; decide)
  · have bound : nameLimit = 255 := rfl
    have size := size_ofList_le ((Sha256.hexHash (Utf8.encode (String.ofList
      (key.toList.map fun c => if c = '\\' then '/' else c)))).take 12)
    rw [List.length_take] at size
    rw [bound]
    exact Nat.le_trans size (by omega)

theorem Path.exists_under {path name : String} (filled : path ≠ "") (valid : ∀ e ∈ [name], IsName e) :
    ∃ p : Normal, p.rooted = isAbsolute path ∧ clean path = p.text ∧
      join [path, name] = (p.under [name] valid).text := by
  obtain ⟨p, cleans⟩ := exists_cleans filled
  exact ⟨p, cleans.rooted, cleans.clean, cleans.join valid⟩

namespace Workspace

variable {w : Workspace} {cwd : Location} {p : Path.Normal} {s t : Store}

/-- The workspace is named in a directory that is there and can be looked up. -/
structure LiesIn (w : Workspace) (p : Path.Normal) (s : Store) : Prop where
  name : IsUsableName w.hash
  dir : w.dir = (p.under [w.hash] (by simpa using name.1)).text
  source : w.sourcePath = Path.join [w.dir, intermediateName]
  usable : p.IsUsable
  there : s.sees p = some .directory

theorem LiesIn.place (lies : w.LiesIn p s) (cwd : Location) :
    Path.place cwd w.dir = p.place cwd ++ [w.hash] := by
  rw [lies.dir, Path.Normal.place_text, Path.Normal.place_under]

/-- A workspace that was cleaned up is gone, as far as it can be removed. -/
theorem LiesIn.removeTree_leaves (lies : w.LiesIn p s) (tree : t.TreeAt cwd) {t' : Store}
    {result : Except FileFault Unit} (ran : (FileAction.removeTree w.dir).run t = (result, t')) :
    (result = .ok () → t'.get? (Path.place cwd w.dir) = none) ∧
      ∀ place, Path.place cwd w.dir <+: place →
        t'.get? place = none ∨ t'.Stays (Path.place cwd w.dir) place := by
  rw [lies.dir] at ran
  rw [lies.place]
  exact FileAction.removeTree_under tree lies.usable lies.name.2.1 lies.name.2.2 ran

/-- So it is after a build that failed, if the output is not in it. -/
theorem LiesIn.discard_leaves (lies : w.LiesIn p s) {v : World} (tree : v.store.TreeAt cwd)
    (outside : ¬ Path.place cwd w.dir <+: Path.place cwd w.output) (place : Location)
    (below : Path.place cwd w.dir <+: place) :
    (w.discard.run v).2.store.get? place = none ∨
      (w.discard.run v).2.store.Stays (Path.place cwd w.dir) place := by
  obtain ⟨leftover, discarded⟩ := w.run_discard v
  rw [discarded]
  dsimp only
  have source : Attempt.Sustains (Store.Changes cwd (fun _ => True) (fun _ => True))
      (FileAction.removeIfExists w.sourcePath) := FileAction.removeIfExists_changes trivial
  have tree' := (source v.store tree).1
  generalize ((FileAction.removeIfExists w.sourcePath).run v.store).2 = t at tree' ⊢
  rcases ran : (FileAction.removeTree w.dir).run t with ⟨result, t'⟩
  have removing : Attempt.Sustains (Store.Changes cwd (fun _ => True) (fun _ => True))
      (FileAction.removeTree w.dir) := FileAction.removeTree_changes fun _ _ => trivial
  have tree'' := (removing.of_run ran tree').1
  have output : Attempt.Sustains (Store.Changes cwd (fun _ => False) (· = Path.place cwd w.output))
      (FileAction.removeIfExists w.output) := FileAction.removeIfExists_changes rfl
  have same (other : Location) (inside : Path.place cwd w.dir <+: other) :
      ((FileAction.removeIfExists w.output).run t').2.rule other = t'.rule other ∧
        ((FileAction.removeIfExists w.output).run t').2.get? other = t'.get? other := by
    obtain ⟨rule, equal | ⟨never, -⟩⟩ := (output t' tree'').2 other fun here => outside (here ▸ inside)
    · exact ⟨rule, equal⟩
    · exact never.elim
  rcases (lies.removeTree_leaves tree' ran).2 place below with gone | stays
  · exact Or.inl ((same place below).2.trans gone)
  · exact Or.inr (stays.congr (by simp [lies.place]) same)

end Workspace

namespace FileAction

variable {path : String} {s t : Store} {cwd : Location}

/-- A directory that was made is found by the path it was made by. -/
theorem find_of_ensureDirectory (tree : s.TreeAt cwd) (ran : (ensureDirectory path).run s = (.ok (), t)) :
    t.find path = .ok .directory := by
  have changes : Attempt.Sustains (Store.Changes cwd (fun _ => True) (fun _ => False))
      (ensureDirectory path) := ensureDirectory_changes (Or.inl trivial)
  have grows := (changes.of_run ran).grows fun _ _ touched => touched.elim
  rcases ensureDirectory_cases s path with
    ⟨fault, failed⟩ | ⟨found, same⟩ | ⟨parent, name, slash, leads, -, made⟩
  · rw [failed] at ran
    cases ran
  · rw [same] at ran
    cases ran
    exact found
  · apply Store.find_of_directory (grows.target tree leads)
    rw [made] at ran
    cases ran
    rw [Store.get?_insert (Store.fits_of_named leads (Or.inl rfl)), if_pos rfl]

theorem find_of_makeDirectories (tree : s.TreeAt cwd) (ran : (makeDirectories path).run s = (.ok (), t)) :
    t.find path = .ok .directory := by
  obtain ⟨_, s', above, made⟩ := Attempt.run_bind_eq_ok.mp ran
  have walked : Attempt.Sustains (Store.Changes cwd (fun _ => True) (fun _ => False))
      ((Path.lineage path).forM ensureDirectory) :=
    .forM fun _ _ => ensureDirectory_changes (Or.inl trivial)
  exact find_of_ensureDirectory (walked.of_run above tree).1 made

end FileAction

/-- Once the directories for builds are made, every workspace lies in one of them. -/
theorem BuildConfig.exists_liesIn {config : BuildConfig} {s t : Store}
    (made : config.ensureDirectories.run s = (.ok (), t)) (input output : String) :
    ∃ p : Path.Normal, (Workspace.ofAbsolute config input output).LiesIn p t := by
  have tree : s.TreeAt s.cwd := ⟨rfl⟩
  obtain ⟨_, s₁, home, rest⟩ := Attempt.run_bind_eq_ok.mp made
  obtain ⟨_, s₂, build, cache⟩ := Attempt.run_bind_eq_ok.mp rest
  have tree₁ := (FileAction.makeDirectories_grows.of_run home tree).1
  have grows : Store.Grows s.cwd s₂ t := FileAction.makeDirectories_grows.of_run cache
  have tree₂ := (FileAction.makeDirectories_grows.of_run build tree₁).1
  have found := grows.find tree₂ (FileAction.find_of_makeDirectories tree₁ build)
  have filled : config.buildDir ≠ "" := by
    intro empty
    rw [empty] at found
    cases found
  have name := shortHash_isUsableName (input ++ "\n" ++ output)
  obtain ⟨p, -, shape, dir⟩ := Path.exists_under filled
    (show ∀ e ∈ [shortHash (input ++ "\n" ++ output)], Path.IsName e by simpa using name.1)
  have cleaned := (grows tree₂).1.find_clean found
  rw [shape] at cleaned
  obtain ⟨usable, there⟩ := (grows tree₂).1.find_text.mp cleaned
  exact ⟨p, name, dir, rfl, usable, there⟩

end DawnC
