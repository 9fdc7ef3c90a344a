import DawnC.Proofs.Store.Lookup

set_option autoImplicit false

namespace DawnC

namespace Path

theorem not_mem_text {c : Char} (different : c ≠ '/') {list : List String}
    (outside : ∀ name ∈ list, c ∉ name.toList) :
    c ∉ ("/" ++ String.intercalate "/" list).toList := by
  have slash : c ∉ "/".toList := by simpa using different
  rw [String.toList_append, List.mem_append, not_or]
  refine ⟨slash, ?_⟩
  induction list with
  | nil => exact List.not_mem_nil
  | cons first rest ih =>
      have head := outside first List.mem_cons_self
      have tail := ih fun name member => outside name (List.mem_cons_of_mem _ member)
      cases rest with
      | nil => simpa using head
      | cons second rest =>
          rw [String.intercalate_cons_cons, String.toList_append, String.toList_append,
            List.mem_append, List.mem_append, not_or, not_or]
          exact ⟨⟨head, slash⟩, tail⟩

theorem absolute_eq_names {cwd : String} (rooted : isAbsolute cwd = true) (path : String) :
    ∃ (list : List String) (valid : ∀ name ∈ list, IsName name),
      absolute cwd path = (Normal.mk true 0 list valid fun _ => rfl).text := by
  obtain ⟨n, isRooted, shape⟩ : ∃ n : Normal, n.rooted = true ∧ absolute cwd path = n.text := by
    rw [absolute]
    split
    · rename_i isRooted
      obtain ⟨n, same, -, shape⟩ := exists_normal path
      exact ⟨n, same.trans isRooted, shape⟩
    · obtain ⟨n, same, -, shape⟩ := exists_normal (cwd ++ "/" ++ path)
      refine ⟨n, ?_, (join_pair (ne_empty rooted) path).trans shape⟩
      rw [same, String.append_assoc, isAbsolute_append (ne_empty rooted), rooted]
  obtain ⟨_, _, list, valid, top⟩ := n
  cases isRooted
  cases top rfl
  exact ⟨list, valid, shape⟩

end Path

namespace Store

variable {s : Store} {cwd : Location} {path : String} {entry : Entry}

/-- A path that finds something has no bad character and no long name. -/
theorem names_of_find (found : s.find path = .ok entry) :
    '\x00' ∉ path.toList ∧
      ∀ name ∈ Path.names path, name ≠ "." → name ≠ ".." → name.utf8ByteSize ≤ nameLimit := by
  cases leads : s.target path with
  | error reason =>
      rw [find, locate, leads] at found
      cases found
  | ok target =>
      obtain ⟨start, started, ends⟩ := target_eq_ok leads
      refine ⟨(start_eq_ok.mp started).1.1, ?_⟩
      intro name member notHere notUp
      rcases ends with ⟨none, -⟩ | ⟨init, last, parent, split, descended, ends⟩
      · rw [none] at member
        cases member
      · rw [split, List.mem_append, List.mem_singleton] at member
        rcases member with before | rfl
        · exact short_of_descend descended name before notHere notUp
        · rcases ends with ⟨here, -⟩ | ⟨up, -⟩ | ⟨-, -, -, short, -⟩
          · exact absurd here notHere
          · exact absurd up notUp
          · exact short

theorem isAbsolute_cwdPath (s : Store) : Path.isAbsolute s.cwdPath = true := by
  rw [Path.isAbsolute_iff, cwdPath, Path.toList_names]
  rfl

/-- A file that a path finds is found from the root. -/
theorem TreeAt.find_absolute (tree : s.TreeAt cwd) {contents : Bytes} {executable : Bool}
    (found : s.find path = .ok (.file contents executable))
    (short : (Path.absolute s.cwdPath path).utf8ByteSize < pathLimit) :
    s.find (Path.absolute s.cwdPath path) = .ok (.file contents executable) := by
  have valid : ∀ name ∈ cwd, Path.IsName name := fun name member => (tree.names name member).1
  obtain ⟨list, isName, shape⟩ := Path.absolute_eq_names s.isAbsolute_cwdPath path
  have same : list = Path.place cwd path := by
    have place := Path.place_absolute valid cwd path
    rw [← tree.here] at place ⊢
    rw [← place, ← cwdPath, shape, Path.Normal.place_text]
    rfl
  have there := tree.file_of_find found
  rw [← same] at there
  have usable := usable_of_get? there
  rw [shape] at short ⊢
  refine tree.find_text.mpr ⟨⟨?_, short, fun name member => (usable name member).2.2⟩, ?_⟩
  · exact Path.not_mem_text (by decide) fun name member => (usable name member).2.1
  · refine tree.sees_of_get? there ?_
    rintro (rfl : list = [])
    rw [get?_root] at there
    cases there

end Store

end DawnC
