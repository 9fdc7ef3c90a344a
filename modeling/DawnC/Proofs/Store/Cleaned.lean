import DawnC.Proofs.Store.Absolute

set_option autoImplicit false

namespace DawnC

namespace Path

variable {path : String}

/-- The bytes of elements, with a slash after each. -/
def weight : List String → Nat
  | [] => 0
  | e :: rest => e.utf8ByteSize + 1 + weight rest

theorem weight_append (first second : List String) :
    weight (first ++ second) = weight first + weight second := by
  induction first with
  | nil => simp [weight]
  | cons e rest ih =>
      rw [List.cons_append, weight, weight, ih]
      omega

theorem size_intercalate {list : List String} (nonempty : list ≠ []) :
    (String.intercalate "/" list).utf8ByteSize + 1 = weight list := by
  have slash : "/".utf8ByteSize = 1 := by decide
  induction list with
  | nil => exact absurd rfl nonempty
  | cons first rest ih =>
      cases rest with
      | nil => simp [weight]
      | cons second more =>
          have later := ih (List.cons_ne_nil _ _)
          rw [String.intercalate_cons_cons, String.utf8ByteSize_append, String.utf8ByteSize_append, slash,
            Nat.add_assoc, later]
          simp [weight]

theorem weight_elements (path : String) : weight (elements path) = path.utf8ByteSize + 1 := by
  have filled : elements path ≠ [] := by
    rw [elements, Text.splitAt, ne_eq, List.map_eq_nil_iff]
    exact Text.cut_ne_nil '/' path.toList
  rw [← size_intercalate filled, intercalate_elements]

theorem weight_cleanStep (rooted : Bool) (stack : List String) (element : String) :
    weight (cleanStep rooted stack element) ≤ weight stack + weight [element] := by
  unfold cleanStep
  split
  · exact Nat.le_add_right _ _
  · split
    · rename_i up
      subst up
      split
      · split
        · exact Nat.le_add_right _ _
        · exact Nat.le_add_left _ _
      · split
        · simp [weight]
          omega
        · simp [weight]
          omega
    · simp [weight]
      omega

theorem weight_foldl (rooted : Bool) (list stack : List String) :
    weight (list.foldl (cleanStep rooted) stack) ≤ weight stack + weight list := by
  induction list generalizing stack with
  | nil => exact Nat.le_add_right _ _
  | cons first rest ih =>
      have step := weight_cleanStep rooted stack first
      have later := ih (cleanStep rooted stack first)
      have split : weight (first :: rest) = weight [first] + weight rest :=
        weight_append [first] rest
      rw [List.foldl_cons]
      omega

theorem weight_reverse (list : List String) : weight list.reverse = weight list := by
  induction list with
  | nil => rfl
  | cons e rest ih =>
      rw [List.reverse_cons, weight_append, ih, weight, weight, weight]
      omega

/-- The slash at the beginning of an absolute path stays. -/
theorem weight_cleanElements (path : String) :
    weight (cleanElements path) + (if isAbsolute path then 1 else 0) ≤ path.utf8ByteSize + 1 := by
  rw [cleanElements, weight_reverse, ← weight_elements]
  cases rooted : isAbsolute path with
  | false => simpa [weight] using weight_foldl false (elements path) []
  | true =>
      obtain ⟨rest, shape⟩ : ∃ rest, path.toList = '/' :: rest := by
        rw [isAbsolute_iff, List.head?_eq_some_iff] at rooted
        exact rooted
      have first : elements path = "" :: (Text.cut '/' rest).map String.ofList := by
        rw [elements, Text.splitAt, shape, Text.cut_cons_self]
        rfl
      have later := weight_foldl true ((Text.cut '/' rest).map String.ofList) []
      have split : weight (elements path) = 1 + weight ((Text.cut '/' rest).map String.ofList) := by
        rw [first]
        simp [weight]
      have empty : weight [] = 0 := rfl
      have same : (elements path).foldl (cleanStep true) [] =
          ((Text.cut '/' rest).map String.ofList).foldl (cleanStep true) [] := by
        rw [first]
        rfl
      rw [same, split, if_pos rfl]
      omega

theorem size_clean_le (filled : path ≠ "") : (clean path).utf8ByteSize ≤ path.utf8ByteSize := by
  have positive : 0 < path.utf8ByteSize := by
    rw [Nat.pos_iff_ne_zero, ne_eq, String.utf8ByteSize_eq_zero_iff]
    exact filled
  have bound := weight_cleanElements path
  have body : (String.intercalate "/" (cleanElements path)).utf8ByteSize = 0 ∨
      (String.intercalate "/" (cleanElements path)).utf8ByteSize + 1 = weight (cleanElements path) := by
    by_cases empty : cleanElements path = []
    · rw [empty]
      exact Or.inl rfl
    · exact Or.inr (size_intercalate empty)
  have slash : "/".utf8ByteSize = 1 := by decide
  have dot : ".".utf8ByteSize = 1 := by decide
  rw [clean]
  split
  · rename_i rooted
    rw [rooted, if_pos rfl] at bound
    rw [String.utf8ByteSize_append, slash]
    omega
  · split
    · rw [dot]
      exact positive
    · omega

theorem mem_of_mem_cleanElements {element : String} (member : element ∈ cleanElements path) :
    element ∈ elements path := by
  have step (rooted : Bool) (stack : List String) (e : String) :
      element ∈ cleanStep rooted stack e → element ∈ stack ∨ element = e := by
    unfold cleanStep
    split
    · exact Or.inl
    · split
      · rename_i up
        subst up
        split
        · split
          · exact Or.inl
          · exact fun here => Or.inr (List.mem_singleton.mp here)
        · split
          · exact fun here => (List.mem_cons.mp here).symm
          · exact fun here => Or.inl (List.mem_cons_of_mem _ here)
      · exact fun here => (List.mem_cons.mp here).symm
  have folded (list stack : List String) :
      element ∈ list.foldl (cleanStep (isAbsolute path)) stack → element ∈ stack ∨ element ∈ list := by
    induction list generalizing stack with
    | nil => exact Or.inl
    | cons first rest ih =>
        intro here
        rcases ih _ here with before | later
        · rcases step _ _ _ before with old | rfl
          · exact Or.inl old
          · exact Or.inr List.mem_cons_self
        · exact Or.inr (List.mem_cons_of_mem _ later)
  rw [cleanElements, List.mem_reverse] at member
  exact (folded _ _ member).resolve_left List.not_mem_nil

theorem not_mem_textOf {c : Char} (notSlash : c ≠ '/') (notDot : c ≠ '.') (rooted : Bool)
    {list : List String} (outside : ∀ e ∈ list, c ∉ e.toList) : c ∉ (textOf rooted list).toList := by
  have whole := not_mem_text notSlash outside
  unfold textOf
  split
  · exact whole
  · split
    · simpa using notDot
    · rw [String.toList_append, List.mem_append, not_or] at whole
      exact whole.2

end Path

namespace Store

variable {s : Store} {cwd : Location} {path : String} {entry : Entry}

theorem start_of_find (found : s.find path = .ok entry) : ∃ start, s.start path = .ok start := by
  cases started : s.start path with
  | ok start => exact ⟨start, rfl⟩
  | error reason =>
      rw [find_of_target_error (target_of_start_error started)] at found
      cases found

/-- A directory that a path names by dots is there, unless the path leads nowhere else. -/
theorem directory_of_self {place : Location} {dots : Dots} (leads : s.target path = .ok (.self place dots)) :
    s.get? place = some .directory ∨ ∀ name ∈ Path.names path, name = "." ∨ name = ".." := by
  obtain ⟨start, -, ⟨none, -⟩ | ⟨init, last, parent, split, descended, ends⟩⟩ := target_eq_ok leads
  · exact Or.inr fun name member => absurd (none ▸ member) List.not_mem_nil
  · have dotted {name : String} (isDots : last = "." ∨ last = "..")
        (before : ∀ name ∈ init, name = "." ∨ name = "..") (member : name ∈ Path.names path) :
        name = "." ∨ name = ".." := by
      rw [split, List.mem_append, List.mem_singleton] at member
      rcases member with inside | rfl
      · exact before name inside
      · exact isDots
    have there := (directory_of_descend descended).2
    rcases ends with ⟨here, same⟩ | ⟨up, same⟩ | ⟨-, -, -, -, other⟩
    · cases same
      exact there.imp_right fun before _ => dotted (Or.inl here) before
    · cases same
      exact there.imp directory_dropLast fun before _ => dotted (Or.inr up) before
    · cases other

/-- The names of a cleaned path are where it leads from the root. -/
theorem names_eq_place {n : Path.Normal} (shape : Path.clean path = n.text) :
    n.names = Path.place [] path := by
  have place := n.place_text []
  rw [← shape, Path.place_clean] at place
  rw [place, Path.Normal.place, Path.Normal.base, ite_self]
  simp [Path.above]

theorem follow_dots {list : List String} (dots : ∀ name ∈ list, name = "." ∨ name = "..") :
    Path.follow [] list = [] := by
  induction list with
  | nil => rfl
  | cons name rest ih =>
      have later := ih fun other member => dots other (List.mem_cons_of_mem _ member)
      rcases dots name List.mem_cons_self with rfl | rfl
      · exact later
      · exact later

theorem place_ne_nil {parent : Location} {name : String} {slash : Bool}
    (leads : s.target path = .ok (.named parent name slash)) : Path.place [] path ≠ [] := by
  obtain ⟨start, -, ⟨-, other⟩ | ⟨init, last, _, split, -, ends⟩⟩ := target_eq_ok leads
  · cases other
  · rcases ends with ⟨-, other⟩ | ⟨-, other⟩ | ⟨notHere, notUp, -, -, -⟩
    · cases other
    · cases other
    · have nonempty : last ≠ "" := by
        rintro rfl
        exact Path.not_mem_names path (by simp [split])
      have moved : Path.follow (Path.follow [] init) [last] = Path.move (Path.follow [] init) last := rfl
      rw [Path.place_eq_names, ite_self, split, Path.follow_append, moved, Path.move,
        if_neg (by simp [nonempty, notHere]), if_neg notUp]
      simp

/-- A path and the same path cleaned find the same. -/
theorem TreeAt.find_clean (tree : s.TreeAt cwd) (found : s.find path = .ok entry) :
    s.find (Path.clean path) = .ok entry := by
  obtain ⟨n, -, elements, shape⟩ := Path.exists_normal path
  obtain ⟨noNul, bounded⟩ := names_of_find found
  obtain ⟨start, started⟩ := start_of_find found
  obtain ⟨-, filled, short⟩ := (start_eq_ok.mp started).1
  have inside : ∀ e ∈ n.elements, e ∈ Path.names path := by
    intro e member
    have nonempty := (n.isElement e member).nonempty
    rw [← elements] at member
    exact List.mem_filter.mpr ⟨Path.mem_of_mem_cleanElements member, by simpa using nonempty⟩
  have usable : n.IsUsable := by
    refine ⟨?_, ?_, ?_⟩
    · exact Path.not_mem_textOf (by decide) (by decide) _ fun e member nul =>
        noNul (Path.mem_of_mem_names (inside e member) nul)
    · rw [← shape]
      exact Nat.lt_of_le_of_lt (Path.size_clean_le filled) short
    · intro name member
      have isName := n.valid name member
      exact bounded name (inside name (List.mem_append_right _ member)) isName.2.1 isName.2.2.1
  have names := names_eq_place shape
  have place : n.place cwd = Path.place cwd path := by
    rw [← Path.Normal.place_text, ← shape, Path.place_clean]
  rw [shape, tree.find_text]
  refine ⟨usable, ?_⟩
  obtain ⟨_, located⟩ := exists_locate found
  obtain ⟨rfl, there | ⟨rfl, dots, leads⟩⟩ := locate_cases located
  · refine tree.sees_of_get? (by rwa [place, ← tree.here]) ?_
    -- a file is found by its name, which cleaning leaves
    intro level
    cases entry with
    | directory => rfl
    | file contents executable =>
        obtain ⟨parent, name, leads, -⟩ := target_of_find_file found
        exact absurd (names.symm.trans level) (place_ne_nil leads)
  · rcases directory_of_self leads with there | dotted
    · exact tree.sees_of_get? (by rwa [place, ← tree.here]) fun _ => rfl
    · apply sees_level
      rw [names, Path.place_eq_names, ite_self]
      exact follow_dots dotted

end Store

end DawnC
