import DawnC.Proofs.Store.Changes

set_option autoImplicit false

namespace DawnC

/-- The paths above a cleaned path are those that lead up as far, and then down some of its names. -/
theorem Path.Normal.mem_lineage {n : Path.Normal} {above : String}
    (member : above ∈ Path.lineage n.text) :
    ∃ m : Path.Normal, above = m.text ∧ m.rooted = n.rooted ∧
      (m.names = [] ∨ m.ups = n.ups ∧ m.names <+: n.names) := by
  induction n using Path.Normal.inductionOn with
  | level n level =>
      obtain ⟨rooted, ups, names, valid, top⟩ := n
      obtain rfl : names = [] := level
      induction ups with
      | zero =>
          have none : Path.lineage (Path.textOf rooted []) = [] := by
            cases rooted <;> decide
          have member : above ∈ Path.lineage (Path.textOf rooted []) := member
          rw [none] at member
          cases member
      | succ ups ih =>
          have relative : rooted = false := by
            cases rooted with
            | true => exact absurd (top rfl) (Nat.succ_ne_zero ups)
            | false => rfl
          let shorter : Path.Normal := ⟨rooted, ups, [], valid, by simp [relative]⟩
          have elements : Path.Normal.elements ⟨rooted, ups + 1, [], valid, top⟩ =
              shorter.elements ++ [".."] := by
            simp [Path.Normal.elements, shorter, List.replicate_succ']
          rw [Path.Normal.text, elements, Path.lineage_concat shorter.isElement (Or.inl rfl)] at member
          split at member
          · cases member
          · rcases List.mem_append.mp member with before | here
            · obtain ⟨m, same, root, flat | ⟨-, below⟩⟩ := ih _ before
              · exact ⟨m, same, root, Or.inl flat⟩
              · exact ⟨m, same, root, Or.inl (List.prefix_nil.mp below)⟩
            · exact ⟨shorter, List.mem_singleton.mp here, rfl, Or.inl rfl⟩
  | down shorter last valid ih =>
      have isName : Path.IsName last := valid last List.mem_cons_self
      rw [Path.Normal.text, Path.Normal.elements_under,
        Path.lineage_concat shorter.isElement (Or.inr isName)] at member
      split at member
      · cases member
      · rcases List.mem_append.mp member with before | here
        · obtain ⟨m, same, root, level | ⟨ups, below⟩⟩ := ih before
          · exact ⟨m, same, root, Or.inl level⟩
          · exact ⟨m, same, root, Or.inr ⟨ups, below.trans (List.prefix_append _ _)⟩⟩
        · exact ⟨shorter, List.mem_singleton.mp here, rfl, Or.inr ⟨rfl, List.prefix_append _ _⟩⟩

namespace FileAction

open Store (Changes)
open Attempt (Sustains)

variable {cwd : Location} {makes touches : Location → Prop} {n : Path.Normal}

theorem ensureDirectory_level (level : n.names = []) :
    Sustains (Changes cwd makes touches) (ensureDirectory n.text) := by
  intro s
  rcases ensureDirectory_cases s n.text with
    ⟨fault, failed⟩ | ⟨-, ran⟩ | ⟨parent, name, slash, leads, free, ran⟩
  · rw [failed]
    exact refl_of _ s
  · rw [ran]
    exact refl_of _ s
  · intro tree
    obtain ⟨dots, other⟩ := tree.target_text_self (Store.usable_of_target leads) level
    rw [leads] at other
    cases other

theorem makeDirectories_level (level : n.names = []) :
    Sustains (Changes cwd makes touches) (makeDirectories n.text) := by
  apply makeDirectories_sustains
  intro above member
  rcases List.mem_append.mp member with before | here
  · obtain ⟨m, rfl, -, flat | ⟨-, below⟩⟩ := Path.Normal.mem_lineage before
    · exact ensureDirectory_level flat
    · rw [level] at below
      exact ensureDirectory_level (List.prefix_nil.mp below)
  · rw [List.mem_singleton.mp here]
    exact ensureDirectory_level level

/-- Directories are made where a cleaned path leads down, on the way to its place. -/
theorem makeDirectories_names_changes
    (made : ∀ list, list ≠ [] → list <+: n.names →
      makes (n.base cwd ++ list) ∨ touches (n.base cwd ++ list)) :
    Sustains (Changes cwd makes touches) (makeDirectories n.text) := by
  have ensured (m : Path.Normal) (rooted : m.rooted = n.rooted)
      (way : m.names = [] ∨ m.ups = n.ups ∧ m.names <+: n.names) :
      Sustains (Changes cwd makes touches) (ensureDirectory m.text) := by
    by_cases level : m.names = []
    · exact ensureDirectory_level level
    · obtain ⟨ups, below⟩ := way.resolve_left level
      have base : m.base cwd = n.base cwd := by
        rw [Path.Normal.base, Path.Normal.base, rooted, ups]
      apply ensureDirectory_changes
      rw [Path.Normal.place_text, Path.Normal.place, base]
      exact made m.names level below
  apply makeDirectories_sustains
  intro above member
  rcases List.mem_append.mp member with before | here
  · obtain ⟨m, rfl, rooted, way⟩ := Path.Normal.mem_lineage before
    exact ensured m rooted way
  · rw [List.mem_singleton.mp here]
    exact ensured n rfl (Or.inr ⟨rfl, List.prefix_rfl⟩)

theorem makeDirectories_text_changes
    (made : ∀ place, place <+: n.place cwd → makes place ∨ touches place) :
    Sustains (Changes cwd makes touches) (makeDirectories n.text) := by
  apply makeDirectories_names_changes
  intro list _ below
  exact made _ ((List.prefix_append_right_inj _).mpr below)

variable {s t : Store}

theorem directory_of_ensureDirectory {n : Path.Normal} {cwd : Location} (tree : s.TreeAt cwd)
    (ran : (ensureDirectory n.text).run s = (.ok (), t)) : n.IsUsable ∧ t.sees n = some .directory := by
  rcases ensureDirectory_cases s n.text with
    ⟨fault, failed⟩ | ⟨found, same⟩ | ⟨parent, name, slash, leads, free, made⟩
  · rw [failed] at ran
    cases ran
  · rw [same] at ran
    cases ran
    exact tree.find_text.mp found
  · rw [made] at ran
    cases ran
    have here := Store.target_named leads
    rw [tree.here, Path.Normal.place_text] at here
    refine ⟨Store.usable_of_target leads, tree.insert.sees_of_get? ?_ fun _ => rfl⟩
    rw [here, Store.get?_insert (Store.fits_of_named leads (Or.inl rfl)), if_pos rfl]

theorem directory_of_makeDirectories {n : Path.Normal} {cwd : Location} (tree : s.TreeAt cwd)
    (ran : (makeDirectories n.text).run s = (.ok (), t)) : n.IsUsable ∧ t.sees n = some .directory := by
  rw [makeDirectories] at ran
  obtain ⟨_, t', above, made⟩ := Attempt.run_bind_eq_ok.mp ran
  have walked : Attempt.Sustains (Store.Changes cwd (fun _ => True) (fun _ => False))
      ((Path.lineage n.text).forM ensureDirectory) :=
    .forM fun _ _ => ensureDirectory_changes (Or.inl trivial)
  exact directory_of_ensureDirectory (walked.of_run above tree).1 made

end FileAction

end DawnC
