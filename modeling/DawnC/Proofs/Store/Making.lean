import DawnC.Proofs.Store.Agreement
import DawnC.Proofs.Store.Cleaned

set_option autoImplicit false

namespace DawnC

namespace Path

/-- A path above another is the beginning of its text. -/
theorem isPrefix_of_mem_lineage {path above : String} (member : above ∈ lineage path) :
    above.toList <+: path.toList := by
  have read (rest before : List Char) (whole : path.toList = before.reverse ++ rest)
      (member : above ∈ lineageFrom before rest) : above.toList <+: path.toList := by
    induction rest generalizing before with
    | nil => cases member
    | cons c rest ih =>
        have whole' : path.toList = (c :: before).reverse ++ rest := by simp [whole]
        rw [lineageFrom] at member
        split at member
        · rcases List.mem_cons.mp member with rfl | later
          · rw [String.toList_ofList, whole]
            exact List.prefix_append _ _
          · exact ih _ whole' later
        · exact ih _ whole' member
  exact read path.toList [] rfl member

theorem two_mul_length_le_weight {list : List String} (filled : ∀ e ∈ list, e ≠ "") :
    2 * list.length ≤ weight list := by
  induction list with
  | nil => exact Nat.le_refl _
  | cons first rest ih =>
      have positive : 0 < first.utf8ByteSize := by
        rw [Nat.pos_iff_ne_zero, ne_eq, String.utf8ByteSize_eq_zero_iff]
        exact filled first List.mem_cons_self
      have later := ih fun e member => filled e (List.mem_cons_of_mem _ member)
      rw [weight, List.length_cons]
      omega

theorem size_textOf (rooted : Bool) {list : List String} (nonempty : list ≠ []) :
    (textOf rooted list).utf8ByteSize + 1 = weight list + if rooted then 1 else 0 := by
  have slash : "/".utf8ByteSize = 1 := by decide
  have body := size_intercalate nonempty
  cases rooted with
  | true =>
      rw [textOf, if_pos rfl, String.utf8ByteSize_append, slash, if_pos rfl]
      omega
  | false =>
      rw [textOf, if_neg (by decide), if_neg nonempty, if_neg (by decide)]
      omega

namespace Normal

variable (n : Normal) {more : List String} (valid : ∀ name ∈ more, IsName name)

theorem size_under : n.text.utf8ByteSize ≤ (n.under more valid).text.utf8ByteSize ∧
    more.length ≤ (n.under more valid).text.utf8ByteSize := by
  rw [text, text, elements_under, show (n.under more valid).rooted = n.rooted from rfl]
  by_cases none : more = []
  · simp [none]
  have longer := two_mul_length_le_weight fun e member => (valid e member).1
  have some := List.length_pos_iff.mpr none
  have whole := size_textOf n.rooted (List.append_ne_nil_of_right_ne_nil n.elements none)
  rw [weight_append] at whole
  by_cases empty : n.elements = []
  · have alone : (textOf n.rooted []).utf8ByteSize = 1 := by
      cases n.rooted with
      | true => decide
      | false => decide
    rw [empty, alone]
    rw [empty] at whole
    have nothing : weight [] = 0 := rfl
    omega
  · have part := size_textOf n.rooted empty
    omega

end Normal

end Path

namespace Path.Normal.IsUsable

variable {n m : Path.Normal} {more : List String} {valid : ∀ name ∈ more, Path.IsName name}

theorem not_mem_elements (usable : n.IsUsable) {e : String} (member : e ∈ n.elements) : '\x00' ∉ e.toList := by
  have named : e ∈ Path.names n.text := by
    rw [names_text, if_neg fun empty => by rw [empty.2] at member; cases member]
    exact member
  exact fun nul => usable.noNul (Path.mem_of_mem_names named nul)

/-- Under a usable path, only the length decides. -/
theorem under_iff (usable : n.IsUsable) (names : ∀ name ∈ more, IsUsableName name) :
    (n.under more valid).IsUsable ↔ (n.under more valid).text.utf8ByteSize < pathLimit := by
  constructor
  · exact fun under => under.size
  · intro size
    refine ⟨?_, size, ?_⟩
    · rw [text, elements_under]
      apply Path.not_mem_textOf (by decide) (by decide)
      intro e member
      rcases List.mem_append.mp member with old | new
      · exact usable.not_mem_elements old
      · exact (names e new).2.1
    · intro name member
      rcases List.mem_append.mp member with old | new
      · exact usable.short name old
      · exact (names name new).2.2

theorem of_under (usable : (n.under more valid).IsUsable) : n.IsUsable := by
  refine ⟨?_, Nat.lt_of_le_of_lt (n.size_under valid).1 usable.size, ?_⟩
  · apply Path.not_mem_textOf (by decide) (by decide)
    intro e member
    apply usable.not_mem_elements
    rw [elements_under]
    exact List.mem_append_left _ member
  · exact fun name member => usable.short name (List.mem_append_left _ member)

theorem of_mem_lineage (usable : n.IsUsable) (member : m.text ∈ Path.lineage n.text)
    (names : ∀ name ∈ m.names, name ∈ n.names) : m.IsUsable := by
  obtain ⟨rest, whole⟩ := Path.isPrefix_of_mem_lineage member
  have split : n.text = m.text ++ String.ofList rest := by
    rw [← String.toList_inj, String.toList_append, String.toList_ofList, whole]
  refine ⟨?_, ?_, fun name inside => usable.short name (names name inside)⟩
  · exact fun nul => usable.noNul (whole ▸ List.mem_append_left _ nul)
  · have size := usable.size
    rw [split, String.utf8ByteSize_append] at size
    omega

end Path.Normal.IsUsable

theorem Store.TreeAt.target_name {s : Store} {cwd : Location} {n : Path.Normal} {last : String}
    {valid : ∀ name ∈ [last], Path.IsName name} (tree : s.TreeAt cwd) (usable : (n.under [last] valid).IsUsable)
    (directory : s.get? (n.place cwd) = some .directory) :
    s.target (n.under [last] valid).text = .ok (.named (n.place cwd) last false) :=
  tree.target_text usable rfl directory

namespace FileAction

open Attempt (Sustains run_bind_ok run_bind_error)
open DawnC.Path (Normal IsName)

variable {s t : Store} {cwd : Location}

/-- A directory that is found is made as it is. -/
theorem run_makeDirectories_of_directory (tree : s.TreeAt cwd) {n : Normal} (usable : n.IsUsable)
    (there : s.sees n = some .directory) : (makeDirectories n.text).run s = (.ok (), s) := by
  have walked (list : List String) (inside : ∀ above ∈ list, above ∈ Path.lineage n.text) :
      (list.forM ensureDirectory).run s = (.ok (), s) := by
    induction list with
    | nil => rfl
    | cons above rest ih =>
        have member := inside above List.mem_cons_self
        obtain ⟨m, rfl, rooted, shape⟩ := Normal.mem_lineage member
        have found : s.find m.text = .ok .directory := by
          rcases shape with flat | ⟨ups, below⟩
          · exact Store.find_level flat (usable.of_mem_lineage member (by simp [flat]))
          · refine tree.find_text.mpr ⟨usable.of_mem_lineage member fun _ inside => below.subset inside, ?_⟩
            by_cases flat : m.names = []
            · exact Store.sees_level flat
            · have down : n.names ≠ [] := fun level => flat (List.prefix_nil.mp (level ▸ below))
              rw [tree.sees_down down] at there
              rw [tree.sees_down flat]
              have base : m.base cwd = n.base cwd := by rw [Normal.base, Normal.base, rooted, ups]
              have way : m.place cwd <+: n.place cwd := by
                rw [Normal.place, Normal.place, base]
                exact (List.prefix_append_right_inj _).mpr below
              by_cases last : m.place cwd = n.place cwd
              · rw [last, there]
              · exact Store.directory_of_isPrefix there way last
        exact (run_bind_ok (ensureDirectory_of_directory found)).trans
          (ih fun other later => inside other (List.mem_cons_of_mem _ later))
  rw [makeDirectories, run_bind_ok (walked _ fun _ member => member)]
  exact ensureDirectory_of_directory (tree.find_text.mpr ⟨usable, there⟩)

theorem run_ensureDirectory_under (tree : s.TreeAt cwd) {m : Normal} {last : String}
    {valid : ∀ name ∈ [last], IsName name} (usable : (m.under [last] valid).IsUsable)
    (directory : s.get? (m.place cwd) = some .directory) (free : s.Open (m.place cwd ++ [last])) :
    ∃ t, (ensureDirectory (m.under [last] valid).text).run s = (.ok (), t) ∧
      ∀ place, t.get? place = if place = m.place cwd ++ [last] then some .directory else s.get? place := by
  have leads := tree.target_name usable directory
  rcases free with none | there
  · refine ⟨_, ensureDirectory_of_free leads none, ?_⟩
    exact Store.get?_insert (Store.fits_of_named leads (Or.inl rfl))
  · refine ⟨s, ensureDirectory_of_directory (Store.find_of_directory leads there), ?_⟩
    intro place
    split
    · rename_i here
      rw [here, there]
    · rfl

/-- Where nothing stands in the way, the places on the way become directories and nothing else changes. -/
theorem run_makeDirectories (tree : s.TreeAt cwd) (n : Normal) (usable : n.IsUsable)
    (based : s.get? (n.base cwd) = some .directory)
    (free : ∀ place, place <+: n.place cwd → s.Open place) :
    ∃ t, (makeDirectories n.text).run s = (.ok (), t) ∧
      ∀ place, t.get? place = if place <+: n.place cwd then some .directory else s.get? place := by
  induction n using Normal.inductionOn with
  | level n level =>
      refine ⟨s, run_makeDirectories_of_directory tree usable (Store.sees_level level), ?_⟩
      have directory : s.get? (n.place cwd) = some .directory := by
        rw [← tree.sees_eq based, Store.sees_level level]
      intro place
      split
      · rename_i way
        by_cases last : place = n.place cwd
        · rw [last, directory]
        · exact Store.directory_of_isPrefix directory way last
      · rfl
  | down m last valid ih =>
      rw [Normal.place_under] at free ⊢
      have above : ∀ place, place <+: m.place cwd → s.Open place :=
        fun place way => free place (way.trans (List.prefix_append _ _))
      obtain ⟨u, made, exact_u⟩ := ih usable.of_under based above
      have changes : Sustains (Store.Changes cwd (fun _ => True) (fun _ => False)) (makeDirectories m.text) :=
        makeDirectories_changes fun _ => trivial
      obtain ⟨treeU, outside⟩ := changes.of_run made tree
      have directory : u.get? (m.place cwd) = some .directory := by
        rw [exact_u, if_pos List.prefix_rfl]
      have beyond : ¬ m.place cwd ++ [last] <+: m.place cwd := by
        intro way
        have lengths := way.length_le
        rw [List.length_append, List.length_singleton] at lengths
        omega
      have free' : u.Open (m.place cwd ++ [last]) := by
        refine Store.Alike.isOpen ⟨?_, (outside _ not_false).1.symm⟩ (free _ List.prefix_rfl)
        rw [exact_u, if_neg beyond]
      obtain ⟨t, ran, exact_t⟩ := run_ensureDirectory_under treeU usable directory free'
      refine ⟨t, ?_, ?_⟩
      · rw [makeDirectories_under]
        split
        · rename_i empty
          have level : m.names = [] := (List.append_eq_nil_iff.mp empty).2
          rw [run_makeDirectories_of_directory tree usable.of_under (Store.sees_level level)] at made
          cases made
          exact ran
        · rw [run_bind_ok made, ran]
      · intro place
        rw [exact_t, exact_u]
        by_cases here : place = m.place cwd ++ [last]
        · simp [here]
        · simp [here, List.prefix_concat_iff]

theorem run_writeFileAs {path : String} {parent : Location} {name : String} {executable : Bool}
    (leads : s.target path = .ok (.named parent name false))
    (free : ∀ entry, s.get? (parent ++ [name]) = some entry → ∃ old, entry = .file old executable)
    (writable : (s.rule (parent ++ [name])).unwritable = false) (contents : Bytes) :
    (writeFileAs executable path contents).run s =
      (.ok (), s.insert (parent ++ [name]) (.file contents executable)) := by
  rw [writeFileAs, run_bind_ok (run_target_ok leads)]
  dsimp only
  have noDirectory : s.get? (parent ++ [name]) ≠ some .directory := by
    intro directory
    obtain ⟨old, other⟩ := free .directory directory
    cases other
  rw [run_bind_ok (Attempt.run_get s), if_neg (by simpa using noDirectory), run_bind_ok (Attempt.run_get s),
    writable, if_neg (by decide), run_bind_ok (Attempt.run_get s)]
  cases there : s.get? (parent ++ [name]) with
  | none => rfl
  | some entry =>
      obtain ⟨old, rfl⟩ := free entry there
      rfl

/-- Where a directory could not be made, the path finds none, unless it did before. -/
theorem not_directory_of_makeDirectories_error (tree : s.TreeAt cwd) {n : Normal} {fault : FileFault}
    (failed : (makeDirectories n.text).run s = (.error fault, t))
    (missing : ¬ (n.IsUsable ∧ s.sees n = some .directory)) :
    ¬ (n.IsUsable ∧ t.sees n = some .directory) := by
  have tree' := (makeDirectories_grows.of_run failed tree).1
  induction n using Normal.inductionOn with
  | level n level => exact fun found => missing ⟨found.1, Store.sees_level level⟩
  | down m last valid ih =>
      rintro ⟨usable, there⟩
      have found := tree'.find_text.mpr ⟨usable, there⟩
      rw [makeDirectories_under] at failed
      split at failed
      · rw [eq_of_ensureDirectory_error failed] at there
        exact missing ⟨usable, there⟩
      · rcases Attempt.run_bind_eq_error.mp failed with before | ⟨_, s', made, failed'⟩
        · -- the directory above is there in the end, so it was there before and could be made
          rw [tree'.sees_down (by simp [Normal.under]), Normal.place_under] at there
          have above := tree'.sees_of_get? (Store.parents there) fun _ => rfl
          have present : m.IsUsable ∧ s.sees m = some .directory := by
            by_contra absent
            exact ih before absent ⟨usable.of_under, above⟩
          rw [run_makeDirectories_of_directory tree present.1 present.2] at before
          cases before
        · have same := eq_of_ensureDirectory_error failed'
          subst same
          rw [ensureDirectory_of_directory found] at failed'
          cases failed'

end FileAction

end DawnC
