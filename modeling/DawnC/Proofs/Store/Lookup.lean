import DawnC.Proofs.Store.Tree

set_option autoImplicit false

namespace DawnC

/-- The path can be looked up: its text is allowed and its names are short. -/
structure Path.Normal.IsUsable (n : Path.Normal) : Prop where
  noNul : '\x00' ∉ n.text.toList
  size : n.text.utf8ByteSize < pathLimit
  short : ∀ name ∈ n.names, name.utf8ByteSize ≤ nameLimit

namespace Store

variable {s t : Store} {cwd : Location} {n : Path.Normal}

section Find

variable {path : String} {place parent : Location} {name : String} {slash : Bool}
  {reason : FileFault.Reason}

theorem target_of_start_error (failed : s.start path = .error reason) :
    s.target path = .error reason := by
  rw [Store.target, failed]
  rfl

theorem find_of_target_error (failed : s.target path = .error reason) :
    s.find path = .error reason := by
  rw [find, locate, failed]
  rfl

theorem find_of_self {dots : Dots} (leads : s.target path = .ok (.self place dots)) :
    s.find path = .ok .directory := by
  rw [find, locate, leads]
  rfl

theorem find_of_free (leads : s.target path = .ok (.named parent name slash))
    (free : s.get? (parent ++ [name]) = none) : s.find path = .error .notFound := by
  rw [find, locate, leads]
  dsimp only [bind, Except.bind]
  rw [free]
  rfl

theorem find_of_directory (leads : s.target path = .ok (.named parent name slash))
    (there : s.get? (parent ++ [name]) = some .directory) : s.find path = .ok .directory := by
  rw [find, locate, leads]
  dsimp only [bind, Except.bind]
  rw [there]
  rfl

theorem target_of_find_file {contents : Bytes} {executable : Bool}
    (found : s.find path = .ok (.file contents executable)) :
    ∃ parent name, s.target path = .ok (.named parent name false) ∧
      s.get? (parent ++ [name]) = some (.file contents executable) := by
  rw [find, locate] at found
  cases leads : s.target path with
  | error reason =>
      rw [leads] at found
      cases found
  | ok target =>
      rw [leads] at found
      cases target with
      | self place dots => cases found
      | named parent name slash =>
          dsimp only [bind, Except.bind] at found
          cases there : s.get? (parent ++ [name]) with
          | none =>
              rw [there] at found
              cases found
          | some entry =>
              rw [there] at found
              cases entry with
              | directory => cases found
              | file contents' executable' =>
                  cases slash with
                  | true => cases found
                  | false =>
                      cases found
                      exact ⟨parent, name, rfl, there⟩

end Find

/-- What a usable path finds. A path without names is a directory, even if it was removed. -/
def sees (s : Store) (n : Path.Normal) : Option Entry :=
  if n.names = [] then some .directory else s.get? (n.place s.cwd)

theorem sees_level (level : n.names = []) : s.sees n = some .directory := if_pos level

theorem base_isPrefix (relative : n.rooted = false) : n.base cwd <+: cwd := by
  rw [Path.Normal.base, relative]
  exact List.take_prefix _ _

theorem base_of_rooted (rooted : n.rooted = true) : n.base cwd = [] := by
  rw [Path.Normal.base, rooted]
  exact List.take_nil

/-- From a working directory that is there, all that leads up leads to a directory. -/
theorem directory_base (here : s.get? cwd = some .directory) : s.get? (n.base cwd) = some .directory := by
  cases rooted : n.rooted with
  | true => rw [base_of_rooted rooted, get?_root]
  | false =>
      by_cases same : n.base cwd = cwd
      · rw [same, here]
      · exact directory_of_isPrefix here (base_isPrefix rooted) same

namespace TreeAt

theorem sees_down (tree : s.TreeAt cwd) (down : n.names ≠ []) : s.sees n = s.get? (n.place cwd) := by
  rw [sees, if_neg down, tree.here]

/-- Where the way up leads to a directory that is there, a path finds what is at its place. -/
theorem sees_eq (tree : s.TreeAt cwd) (based : s.get? (n.base cwd) = some .directory) :
    s.sees n = s.get? (n.place cwd) := by
  by_cases level : n.names = []
  · rw [sees_level level, Path.Normal.place, level, List.append_nil, based]
  · exact tree.sees_down level

theorem sees_of_get? (tree : s.TreeAt cwd) {entry : Entry} (found : s.get? (n.place cwd) = some entry)
    (directory : n.names = [] → entry = .directory) : s.sees n = some entry := by
  by_cases level : n.names = []
  · rw [sees_level level, directory level]
  · rw [tree.sees_down level, found]

theorem start_text (tree : s.TreeAt cwd) (usable : n.IsUsable) :
    s.start n.text = .ok (if n.rooted then [] else cwd) := by
  rw [start_eq_ok, Path.Normal.isAbsolute_text, tree.here]
  exact ⟨⟨usable.noNul, n.text_ne_empty, usable.size⟩, rfl⟩

end TreeAt

theorem descend_ups (place : Location) (ups : Nat) :
    s.descend place (List.replicate ups "..") = .ok (Path.above place ups) := by
  induction ups generalizing place with
  | zero => simp [descend, Path.above]
  | succ ups ih =>
      have moved : Path.above place (ups + 1) = Path.above place.dropLast ups := by
        rw [← Path.follow_ups, ← Path.follow_ups]
        rfl
      rw [moved, ← ih]
      rfl

/-- What names lead to is there, unless there are only dots among them. -/
theorem directory_of_descend {place other : Location} {list : List String}
    (found : s.descend place list = .ok other) :
    (s.get? place = some .directory → s.get? other = some .directory) ∧
      (s.get? other = some .directory ∨ ∀ name ∈ list, name = "." ∨ name = "..") := by
  induction list generalizing place with
  | nil =>
      cases found
      exact ⟨id, Or.inr fun _ member => absurd member List.not_mem_nil⟩
  | cons name rest ih =>
      simp only [descend] at found
      split at found
      · rename_i here
        obtain ⟨stays, there⟩ := ih found
        exact ⟨stays, there.imp_right (List.forall_mem_cons.mpr ⟨Or.inl here, ·⟩)⟩
      · split at found
        · rename_i up
          obtain ⟨stays, there⟩ := ih found
          exact ⟨fun directory => stays (directory_dropLast directory),
            there.imp_right (List.forall_mem_cons.mpr ⟨Or.inr up, ·⟩)⟩
        · split at found
          · cases found
          · split at found
            · cases found
            · split at found
              · rename_i inside
                have there := (ih found).1 inside
                exact ⟨fun _ => there, Or.inl there⟩
              · cases found
              · cases found

/-- What a name gives in a place that was led to. -/
def named? (s : Store) (parent : Location) (last : String) : Except FileFault.Reason Target :=
  if s.get? parent ≠ some .directory then .error .notFound
  else if nameLimit < last.utf8ByteSize then .error .nameTooLong
  else .ok (.named parent last false)

theorem named?_of_directory {parent : Location} {last : String} (there : s.get? parent = some .directory)
    (short : last.utf8ByteSize ≤ nameLimit) : s.named? parent last = .ok (.named parent last false) := by
  rw [named?, if_neg (not_not_intro there), if_neg (Nat.not_lt.mpr short)]

/-- A path that leads down is followed to its last name. -/
theorem target_down {init : List String} {last : String} (split : n.names = init ++ [last])
    {start : Location} (started : s.start n.text = .ok start) :
    s.target n.text =
      (s.descend start (List.replicate n.ups ".." ++ init)).bind fun parent => s.named? parent last := by
  have isLast : Path.IsName last := n.valid last (by simp [split])
  have elements : n.elements = List.replicate n.ups ".." ++ init ++ [last] := by
    rw [Path.Normal.elements, split, List.append_assoc]
  have filled : n.elements ≠ [] := by
    rw [elements]
    exact List.append_ne_nil_of_right_ne_nil _ (List.cons_ne_nil _ _)
  have names : Path.names n.text = List.replicate n.ups ".." ++ init ++ [last] := by
    rw [Path.Normal.names_text, if_neg (fun empty => filled empty.2), elements]
  have slash : Path.hasTrailingSlash n.text = false := by
    rw [Path.hasTrailingSlash, decide_eq_false_iff_not]
    exact Path.getLast?_textOf filled n.isElement
  simp only [Store.target, started, names, List.getLast?_concat, List.dropLast_concat, bind,
    Except.bind, isLast.2.1, isLast.2.2.1, if_false, slash]
  rfl

theorem descend_names {list : List String} {place : Location}
    (names : ∀ name ∈ list, Path.IsName name) (short : ∀ name ∈ list, name.utf8ByteSize ≤ nameLimit)
    (there : s.get? (place ++ list) = some .directory) :
    s.descend place list = .ok (place ++ list) := by
  induction list generalizing place with
  | nil => rw [List.append_nil]
           rfl
  | cons first rest ih =>
      have isName := names first List.mem_cons_self
      have split : place ++ first :: rest = place ++ [first] ++ rest := by simp
      have above : s.get? place = some .directory := directory_above there (List.cons_ne_nil _ _)
      rw [split] at there ⊢
      have here : s.get? (place ++ [first]) = some .directory := by
        by_cases last : rest = []
        · simpa [last] using there
        · exact directory_above there last
      rw [descend, if_neg isName.2.1, if_neg isName.2.2.1, if_neg (not_not_intro above),
        if_neg (Nat.not_lt.mpr (short first List.mem_cons_self)), here]
      exact ih (fun name member => names name (List.mem_cons_of_mem _ member))
        (fun name member => short name (List.mem_cons_of_mem _ member)) there

namespace TreeAt

/-- A path that leads down leads to its last name in a directory that is there. -/
theorem target_text (tree : s.TreeAt cwd) (usable : n.IsUsable) {init : List String} {last : String}
    (split : n.names = init ++ [last]) (there : s.get? (n.base cwd ++ init) = some .directory) :
    s.target n.text = .ok (.named (n.base cwd ++ init) last false) := by
  have isName : ∀ name ∈ init ++ [last], Path.IsName name := split ▸ n.valid
  have short : ∀ name ∈ init ++ [last], name.utf8ByteSize ≤ nameLimit := split ▸ usable.short
  have descended : s.descend (if n.rooted then [] else cwd) (List.replicate n.ups ".." ++ init) =
      .ok (n.base cwd ++ init) := by
    rw [descend_append, descend_ups]
    exact descend_names (fun name member => isName name (List.mem_append_left _ member))
      (fun name member => short name (List.mem_append_left _ member)) there
  rw [target_down split (tree.start_text usable), descended]
  exact named?_of_directory there (short last (by simp))

theorem target_text_self (tree : s.TreeAt cwd) (usable : n.IsUsable) (level : n.names = []) :
    ∃ dots, s.target n.text = .ok (.self (n.base cwd) dots) := by
  have elements : n.elements = List.replicate n.ups ".." := by
    rw [Path.Normal.elements, level, List.append_nil]
  cases ups : n.ups with
  | zero =>
      have base : n.base cwd = if n.rooted then [] else cwd := by
        simp [Path.Normal.base, Path.above, ups]
      cases rooted : n.rooted with
      | true =>
          have names : Path.names n.text = [] := by
            rw [Path.Normal.names_text, elements, ups, rooted]
            rfl
          refine ⟨.root, ?_⟩
          simp only [Store.target, tree.start_text usable, names, bind, Except.bind, base]
          rfl
      | false =>
          have names : Path.names n.text = ["."] := by
            rw [Path.Normal.names_text, elements, ups, rooted]
            rfl
          refine ⟨.here, ?_⟩
          simp only [Store.target, tree.start_text usable, names, bind, Except.bind, base]
          rfl
  | succ ups' =>
      have names : Path.names n.text = List.replicate ups' ".." ++ [".."] := by
        have filled : n.elements ≠ [] := by
          rw [elements, ups]
          exact List.cons_ne_nil _ _
        rw [Path.Normal.names_text, if_neg (fun empty => filled empty.2), elements, ups,
          List.replicate_succ']
      have base : n.base cwd = (Path.above (if n.rooted then [] else cwd) ups').dropLast := by
        rw [Path.Normal.base, ups, ← Path.follow_ups, List.replicate_succ', Path.follow_append,
          Path.follow_ups]
        rfl
      refine ⟨.above, ?_⟩
      simp only [Store.target, tree.start_text usable, names, List.getLast?_concat,
        List.dropLast_concat, descend_ups, bind, Except.bind, base]
      rfl

end TreeAt

theorem usable_of_target {target : Target} (found : s.target n.text = .ok target) : n.IsUsable := by
  obtain ⟨start, started, leads⟩ := target_eq_ok found
  obtain ⟨noNul, -, size⟩ := (start_eq_ok.mp started).1
  refine ⟨noNul, size, ?_⟩
  intro name member
  have isName := n.valid name member
  have inside : name ∈ Path.names n.text := by
    have element : name ∈ n.elements := List.mem_append_right _ member
    rw [Path.Normal.names_text, if_neg fun empty => by rw [empty.2] at element; cases element]
    exact element
  rcases leads with ⟨none, -⟩ | ⟨init, last, parent, split, descended, ends⟩
  · rw [none] at inside
    cases inside
  · rw [split, List.mem_append, List.mem_singleton] at inside
    rcases inside with before | rfl
    · exact short_of_descend descended name before isName.2.1 isName.2.2.1
    · rcases ends with ⟨here, -⟩ | ⟨up, -⟩ | ⟨-, -, -, short, -⟩
      · exact absurd here isName.2.1
      · exact absurd up isName.2.2.1
      · exact short

theorem usable_of_find {entry : Entry} (found : s.find n.text = .ok entry) : n.IsUsable := by
  cases leads : s.target n.text with
  | error reason =>
      rw [find_of_target_error leads] at found
      cases found
  | ok target => exact usable_of_target leads

theorem find_level (level : n.names = []) (usable : n.IsUsable) : s.find n.text = .ok .directory := by
  obtain ⟨dots, leads⟩ := TreeAt.target_text_self (s := s) ⟨rfl⟩ usable level
  exact find_of_self leads

namespace TreeAt

theorem locate_text (tree : s.TreeAt cwd) (usable : n.IsUsable) {entry : Entry}
    (there : s.sees n = some entry) : s.locate n.text = .ok (n.place cwd, entry) := by
  rcases List.eq_nil_or_concat n.names with level | ⟨init, last, split⟩
  · obtain ⟨dots, leads⟩ := tree.target_text_self usable level
    rw [sees_level level] at there
    cases there
    rw [Path.Normal.place, level, List.append_nil]
    simp only [locate, leads, bind, Except.bind]
    rfl
  · rw [List.concat_eq_append] at split
    have place : n.place cwd = n.base cwd ++ init ++ [last] := by
      rw [Path.Normal.place, split, List.append_assoc]
    rw [tree.sees_down (by simp [split]), place] at there
    have leads := tree.target_text usable split (parents there)
    rw [place]
    simp only [locate, leads, bind, Except.bind, there]
    cases entry with
    | directory => rfl
    | file contents executable => rfl

theorem find_text (tree : s.TreeAt cwd) {entry : Entry} :
    s.find n.text = .ok entry ↔ n.IsUsable ∧ s.sees n = some entry := by
  constructor
  · intro found
    have usable := usable_of_find found
    refine ⟨usable, ?_⟩
    by_cases level : n.names = []
    · rw [find_level level usable] at found
      cases found
      exact sees_level level
    · rw [tree.sees_down level]
      obtain ⟨place, located⟩ := exists_locate found
      obtain ⟨rfl, there | ⟨-, dots, leads⟩⟩ := locate_cases located
      · rwa [tree.here, Path.Normal.place_text] at there
      · -- a path with names does not lead to dots
        rcases List.eq_nil_or_concat n.names with flat | ⟨init, last, split⟩
        · exact absurd flat level
        · rw [List.concat_eq_append] at split
          rw [target_down split (tree.start_text usable)] at leads
          cases descended : s.descend (if n.rooted then [] else cwd) (List.replicate n.ups ".." ++ init) with
          | error reason =>
              rw [descended] at leads
              cases leads
          | ok parent =>
              rw [descended] at leads
              change s.named? parent last = _ at leads
              rw [named?] at leads
              split at leads
              · cases leads
              · split at leads
                · cases leads
                · cases leads
  · rintro ⟨usable, there⟩
    rw [find, tree.locate_text usable there]
    rfl

theorem isDirectory_text (tree : s.TreeAt cwd) :
    s.isDirectory n.text = true ↔ n.IsUsable ∧ s.sees n = some .directory := by
  rw [← tree.find_text, isDirectory]
  split
  · rename_i found
    simp [found]
  · rename_i other
    constructor
    · intro impossible
      cases impossible
    · intro found
      exact absurd found other

end TreeAt

end Store

end DawnC
