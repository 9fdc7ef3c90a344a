import DawnC.Proofs.Build.Workspace
import Mathlib.Data.Set.Function

set_option autoImplicit false

namespace DawnC

def slashed (text : String) : String :=
  String.ofList (text.toList.map fun c => if c = '\\' then '/' else c)

def shortDigest (text : String) : String :=
  String.ofList ((Sha256.hexHash (Utf8.encode text)).take 12)

theorem slashed_append (first second : String) :
    slashed (first ++ second) = slashed first ++ slashed second := by
  rw [slashed, String.toList_append, List.map_append, String.ofList_append]
  rfl

theorem slashed_of_not_mem {text : String} (plain : '\\' ∉ text.toList) : slashed text = text := by
  have same : ∀ c ∈ text.toList, (if c = '\\' then '/' else c) = id c := by
    intro c member
    rw [if_neg]
    · rfl
    · rintro rfl
      exact plain member
  rw [slashed, List.map_congr_left same, List.map_id, String.ofList_toList]

theorem count_slashed (text : String) : (slashed text).toList.count '\n' = text.toList.count '\n' := by
  rw [slashed, String.toList_ofList, List.count, List.countP_map]
  apply List.countP_congr
  intro c _
  by_cases backslash : c = '\\'
  · simp [backslash]
  · simp [backslash]

/-- Where a text was cut at a separator is known from the number of separators before the cut. -/
theorem Text.append_cons_inj {α : Type} [DecidableEq α] {sep : α} {xs xs' ys ys' : List α}
    (count : xs.count sep = xs'.count sep) (same : xs ++ sep :: ys = xs' ++ sep :: ys') :
    xs = xs' ∧ ys = ys' := by
  induction xs generalizing xs' with
  | nil =>
      cases xs' with
      | nil => exact ⟨rfl, List.tail_eq_of_cons_eq same⟩
      | cons x' xs' =>
          obtain rfl : sep = x' := List.head_eq_of_cons_eq same
          rw [List.count_nil, List.count_cons_self] at count
          cases count
  | cons x xs ih =>
      cases xs' with
      | nil =>
          obtain rfl : x = sep := List.head_eq_of_cons_eq same
          rw [List.count_nil, List.count_cons_self] at count
          cases count
      | cons x' xs' =>
          obtain rfl : x = x' := List.head_eq_of_cons_eq same
          have fewer : xs.count sep = xs'.count sep := by
            simp only [List.count_cons] at count
            exact Nat.add_right_cancel count
          obtain ⟨rfl, rfl⟩ := ih fewer (List.tail_eq_of_cons_eq same)
          exact ⟨rfl, rfl⟩

namespace Workspace

/-- The text whose hash names the workspace. -/
def key (w : Workspace) : String := slashed (w.input ++ "\n" ++ w.output)

variable {config : BuildConfig} {input output input' output' : String} {w w' : Workspace}

theorem hash_ofAbsolute : (ofAbsolute config input output).hash =
    shortDigest (ofAbsolute config input output).key := rfl

/-- The directory is the same if and only if the name in it is. -/
theorem dir_eq_iff : (ofAbsolute config input output).dir = (ofAbsolute config input' output').dir ↔
    (ofAbsolute config input output).hash = (ofAbsolute config input' output').hash := by
  constructor
  · intro same
    have places := congrArg (Path.place []) same
    have name (key : String) : Path.IsName (shortHash key) := (shortHash_isUsableName key).1
    simp only [ofAbsolute, Path.place_join_name (name _)] at places ⊢
    exact List.singleton_inj.mp (List.append_cancel_left places)
  · intro same
    simp only [ofAbsolute] at same ⊢
    rw [same]

/-- If the inputs have equally many lines, the text of two workspaces is the same only if both paths
are, but for backslashes. -/
theorem key_eq_iff (lines : w.input.toList.count '\n' = w'.input.toList.count '\n') :
    w.key = w'.key ↔ slashed w.input = slashed w'.input ∧ slashed w.output = slashed w'.output := by
  have whole (w : Workspace) : w.key.toList =
      (slashed w.input).toList ++ '\n' :: (slashed w.output).toList := by
    rw [key, slashed_append, slashed_append, String.toList_append, String.toList_append,
      List.append_assoc]
    rfl
  rw [← String.toList_inj, whole, whole]
  constructor
  · intro same
    rw [← count_slashed, ← count_slashed w'.input] at lines
    obtain ⟨inputs, outputs⟩ := Text.append_cons_inj lines same
    exact ⟨String.toList_inj.mp inputs, String.toList_inj.mp outputs⟩
  · rintro ⟨inputs, outputs⟩
    rw [inputs, outputs]

end Workspace

/-- Two builds with one configuration, if the hash tells the two texts apart that it is given: they share
a workspace if and only if these texts are the same. If the inputs have equally many lines, that is so if
and only if the inputs and the outputs are the same when backslashes are read as slashes; and with no
backslash in them, the paths are the same. -/
theorem workspace_shared_iff {config : BuildConfig} {s s' : Store} {input output input' output' : String}
    {w w' : Workspace} (first : Workspace.ofPaths config s input output = .ok w)
    (second : Workspace.ofPaths config s' input' output' = .ok w')
    (injective : Set.InjOn shortDigest {w.key, w'.key}) :
    (w.dir = w'.dir ↔ w.key = w'.key) ∧
    (w.input.toList.count '\n' = w'.input.toList.count '\n' →
      (w.dir = w'.dir ↔ slashed w.input = slashed w'.input ∧ slashed w.output = slashed w'.output) ∧
      (w.dir = w'.dir → (∀ path ∈ [w.input, w'.input, w.output, w'.output], '\\' ∉ path.toList) →
        w.input = w'.input ∧ w.output = w'.output)) := by
  have shared : w.dir = w'.dir ↔ w.key = w'.key := by
    rw [Workspace.eq_ofStore first, Workspace.eq_ofStore second, Workspace.ofStore, Workspace.ofStore] at *
    rw [Workspace.dir_eq_iff, Workspace.hash_ofAbsolute, Workspace.hash_ofAbsolute]
    exact ⟨Set.injOn_pair.mp injective, congrArg shortDigest⟩
  refine ⟨shared, ?_⟩
  intro lines
  rw [shared, Workspace.key_eq_iff lines]
  refine ⟨Iff.rfl, ?_⟩
  rintro ⟨inputs, outputs⟩ plain
  rw [slashed_of_not_mem (plain _ (by simp)), slashed_of_not_mem (plain _ (by simp))] at inputs outputs
  exact ⟨inputs, outputs⟩

/-- Two programs that are built into one output have workspaces of their own. -/
theorem workspace_shared_iff_two :
    ∃ w w', Workspace.ofPaths homeConfig {} "a.dawn" "out" = .ok w ∧
      Workspace.ofPaths homeConfig {} "b.dawn" "out" = .ok w' ∧
      Set.InjOn shortDigest {w.key, w'.key} ∧ w.dir ≠ w'.dir := by
  have first := Workspace.ofPaths_of_here (s := {}) rfl homeConfig "a.dawn" "out"
  have second := Workspace.ofPaths_of_here (s := {}) rfl homeConfig "b.dawn" "out"
  have injective : Set.InjOn shortDigest {(Workspace.ofStore homeConfig {} "a.dawn" "out").key,
      (Workspace.ofStore homeConfig {} "b.dawn" "out").key} := by
    apply Set.injOn_pair.mpr
    intro same
    exact absurd same (by decide +kernel)
  refine ⟨_, _, first, second, injective, ?_⟩
  intro same
  have equal := ((workspace_shared_iff first second injective).2 (by decide +kernel)).1.mp same
  exact absurd equal.1 (by decide +kernel)

/-- Builds with other inputs and other outputs share a workspace, where a newline in a path leaves open where
the input ends. The hash is not to blame: it is given the same text. -/
theorem different_builds_share_workspace :
    ∃ w w', Workspace.ofPaths homeConfig {} "a" "b\n/c" = .ok w ∧
      Workspace.ofPaths homeConfig {} "a\n/b" "c" = .ok w' ∧
      Set.InjOn shortDigest {w.key, w'.key} ∧ w.dir = w'.dir ∧
      w.input ≠ w'.input ∧ w.output ≠ w'.output := by
  have same : (Workspace.ofStore homeConfig {} "a" "b\n/c").key =
      (Workspace.ofStore homeConfig {} "a\n/b" "c").key := by decide +kernel
  refine ⟨_, _, Workspace.ofPaths_of_here rfl _ _ _, Workspace.ofPaths_of_here rfl _ _ _,
    Set.injOn_pair.mpr fun _ => same, ?_, by decide +kernel, by decide +kernel⟩
  exact Workspace.dir_eq_iff.mpr (congrArg shortDigest same)

end DawnC
