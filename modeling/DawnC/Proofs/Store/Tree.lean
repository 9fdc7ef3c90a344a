import DawnC.Proofs.Place
import DawnC.Store.Lookup

set_option autoImplicit false

namespace DawnC

theorem lookup_filter {α β : Type} [BEq α] [LawfulBEq α] (keep : α → Bool) (entries : List (α × β))
    (key : α) :
    (entries.filter fun e => keep e.1).lookup key = if keep key then entries.lookup key else none := by
  induction entries with
  | nil => simp
  | cons entry rest ih =>
      obtain ⟨first, value⟩ := entry
      by_cases same : key = first
      · subst same
        by_cases kept : keep key = true
        · simp [kept]
        · rw [Bool.not_eq_true] at kept
          simp [kept, ih]
      · have apart : (key == first) = false := by simpa using same
        by_cases kept : keep first = true
        · simp [kept, List.lookup_cons, apart, ih]
        · rw [Bool.not_eq_true] at kept
          simp [kept, List.lookup_cons, apart, ih]

theorem Location.mem_above {place above : Location} :
    above ∈ Location.above place ↔ above <+: place ∧ above ≠ place := by
  rw [Location.above, List.mem_map]
  constructor
  · rintro ⟨length, inside, rfl⟩
    refine ⟨List.take_prefix _ _, ?_⟩
    intro whole
    have lengths := congrArg List.length whole
    rw [List.length_take, List.mem_range] at *
    omega
  · rintro ⟨⟨more, rfl⟩, different⟩
    refine ⟨above.length, List.mem_range.mpr ?_, by simp⟩
    rw [List.length_append, Nat.lt_add_right_iff_pos, List.length_pos_iff]
    rintro rfl
    exact different (List.append_nil above).symm

namespace Store

variable {s : Store} {place other : Location} {entry : Entry}

@[simp] theorem get?_root (s : Store) : s.get? [] = some .directory := rfl

theorem get?_of_ne (down : place ≠ []) : s.get? place = s.entries.lookup place := if_neg down

theorem mem_of_get? (down : place ≠ []) (found : s.get? place = some entry) :
    (place, entry) ∈ s.entries := mem_of_lookup ((get?_of_ne down).symm.trans found)

theorem get?_of_mem (member : (place, entry) ∈ s.entries) : s.get? place = some entry := by
  rw [get?_of_ne (s.placed _ member).1]
  exact lookup_of_mem s.distinct member

theorem usable_of_get? (found : s.get? place = some entry) : ∀ name ∈ place, IsUsableName name := by
  by_cases level : place = []
  · simp [level]
  · exact (s.placed _ (mem_of_get? level found)).2.1

theorem parents {name : String} (found : s.get? (place ++ [name]) = some entry) :
    s.get? place = some .directory := by
  obtain ⟨-, -, top | inside⟩ := s.placed _ (mem_of_get? (by simp) found)
  · rw [List.dropLast_concat] at top
    rw [top, get?_root]
  · rw [List.dropLast_concat] at inside
    exact get?_of_mem inside

theorem directory_above {more : List String} (found : s.get? (place ++ more) = some entry)
    (below : more ≠ []) : s.get? place = some .directory := by
  induction more using List.reverseRecOn generalizing entry with
  | nil => exact absurd rfl below
  | append_singleton more name ih =>
      rw [← List.append_assoc] at found
      have parent := parents found
      by_cases empty : more = []
      · simpa [empty] using parent
      · exact ih parent empty

theorem directory_of_isPrefix (found : s.get? other = some entry) (below : place <+: other)
    (different : place ≠ other) : s.get? place = some .directory := by
  obtain ⟨more, rfl⟩ := below
  apply directory_above found
  rintro rfl
  exact different (List.append_nil place).symm

theorem none_below (noDirectory : s.get? place ≠ some .directory) (below : place <+: other)
    (different : place ≠ other) : s.get? other = none := by
  cases found : s.get? other with
  | none => rfl
  | some entry => exact absurd (directory_of_isPrefix found below different) noDirectory

theorem leaf_of_file {contents : Bytes} {executable : Bool}
    (found : s.get? place = some (.file contents executable)) (name : String) :
    s.get? (place ++ [name]) = none := by
  apply none_below _ (List.prefix_append place [name]) (by simp)
  rw [found]
  simp

theorem directory_dropLast (directory : s.get? place = some .directory) :
    s.get? place.dropLast = some .directory := by
  rcases List.eq_nil_or_concat place with rfl | ⟨init, last, rfl⟩
  · exact directory
  · rw [List.concat_eq_append] at directory ⊢
    rw [List.dropLast_concat]
    exact parents directory

/-- A directory can be made there. -/
def IsFree (s : Store) (place : Location) : Prop :=
  s.get? place = none ∧ (s.rule place).unwritable = false

section Update

@[simp] theorem cwd_insert : (s.insert place entry).cwd = s.cwd := by
  rw [insert]
  split
  · rfl
  · rfl

@[simp] theorem rules_insert : (s.insert place entry).rules = s.rules := by
  rw [insert]
  split
  · rfl
  · rfl

@[simp] theorem cwd_erase : (s.erase place).cwd = s.cwd := rfl

@[simp] theorem rules_erase : (s.erase place).rules = s.rules := rfl

@[simp] theorem cwd_eraseTree : (s.eraseTree place).cwd = s.cwd := rfl

@[simp] theorem rules_eraseTree : (s.eraseTree place).rules = s.rules := rfl

theorem rule_congr {t : Store} (same : t.rules = s.rules) (place : Location) : t.rule place = s.rule place := by
  rw [rule, rule, same]

theorem get?_keep {kept : Location → Bool}
    {closed : ∀ place, kept place = true → kept place.dropLast = true ∨ place.dropLast = []}
    (down : other ≠ []) : (s.keep kept closed).get? other = if kept other then s.get? other else none := by
  rw [get?_of_ne down, get?_of_ne down]
  exact lookup_filter kept s.entries other

theorem get?_erase (down : place ≠ []) (other : Location) :
    (s.erase place).get? other = if place <+: other then none else s.get? other := by
  by_cases root : other = []
  · subst root
    rw [get?_root, if_neg (fun below => down (List.prefix_nil.mp below)), get?_root]
  · rw [erase, get?_keep root]
    simp only [Bool.not_eq_true', ← Bool.not_eq_true, List.isPrefixOf_iff_prefix, ite_not]

theorem get?_erase_leaf (down : place ≠ []) (leaf : ∀ name, s.get? (place ++ [name]) = none)
    (other : Location) :
    (s.erase place).get? other = if other = place then none else s.get? other := by
  rw [get?_erase down]
  by_cases same : other = place
  · rw [if_pos same, if_pos (same ▸ List.prefix_rfl)]
  · rw [if_neg same]
    split
    · rename_i below
      obtain ⟨more, rfl⟩ := below
      cases more with
      | nil => exact absurd (List.append_nil place) same
      | cons name more =>
          have split : place ++ name :: more = place ++ [name] ++ more := by simp
          by_cases last : more = []
          · rw [split, last, List.append_nil, leaf]
          · rw [split]
            exact (none_below (by simp [leaf]) (List.prefix_append _ _) (by simpa using last)).symm
    · rfl

theorem get?_insert (fits : s.Fits place entry) (other : Location) :
    (s.insert place entry).get? other = if other = place then some entry else s.get? other := by
  obtain ⟨down, -⟩ := id fits
  rw [insert, dif_pos fits]
  by_cases root : other = []
  · subst root
    rw [get?_root, if_neg down.symm, get?_root]
  · rw [get?_of_ne root, get?_of_ne root, List.lookup_cons]
    by_cases same : other = place
    · subst same
      simp
    · have apart : (other == place) = false := by simpa using same
      rw [apart, if_neg same, lookup_filter (fun l => decide (l ≠ place)), if_pos (decide_eq_true same)]

/-- When the tree at `root` is removed the place stays: something that is stuck is there or below. -/
def Stays (s : Store) (root place : Location) : Prop :=
  (s.stuckBelow root).any place.isPrefixOf = true

instance (root place : Location) : Decidable (s.Stays root place) :=
  inferInstanceAs (Decidable (_ = true))

theorem mem_stuckBelow {root : Location} (down : root ≠ []) :
    place ∈ s.stuckBelow root ↔
      (∃ entry, s.get? place = some entry) ∧ root <+: place ∧ s.isStuck root place = true := by
  rw [stuckBelow, List.mem_filter, List.mem_map, Bool.and_eq_true, List.isPrefixOf_iff_prefix]
  refine and_congr_left fun below => ?_
  constructor
  · rintro ⟨⟨_, entry⟩, member, rfl⟩
    exact ⟨entry, get?_of_mem member⟩
  · rintro ⟨entry, found⟩
    refine ⟨(place, entry), mem_of_get? ?_ found, rfl⟩
    rintro rfl
    exact down (List.prefix_nil.mp below.1)

theorem stays_iff {root : Location} (down : root ≠ []) :
    s.Stays root place ↔ ∃ other entry, s.get? other = some entry ∧ root <+: other ∧ place <+: other ∧
      s.isStuck root other = true := by
  rw [Stays, List.any_eq_true]
  constructor
  · rintro ⟨other, member, above⟩
    obtain ⟨⟨entry, found⟩, below, stuck⟩ := (mem_stuckBelow down).mp member
    exact ⟨other, entry, found, below, List.isPrefixOf_iff_prefix.mp above, stuck⟩
  · rintro ⟨other, entry, found, below, above, stuck⟩
    exact ⟨other, (mem_stuckBelow down).mpr ⟨⟨entry, found⟩, below, stuck⟩,
      List.isPrefixOf_iff_prefix.mpr above⟩

theorem get?_eraseTree (down : place ≠ []) (other : Location) :
    (s.eraseTree place).get? other = if place <+: other ∧ ¬ s.Stays place other then none else s.get? other := by
  by_cases root : other = []
  · subst root
    rw [get?_root, if_neg (fun below => down (List.prefix_nil.mp below.1)), get?_root]
  · have kept : (!place.isPrefixOf other || (s.stuckBelow place).any other.isPrefixOf) = true ↔
        ¬ (place <+: other ∧ ¬ s.Stays place other) := by
      rw [Bool.or_eq_true, Bool.not_eq_true', ← Bool.not_eq_true, List.isPrefixOf_iff_prefix,
        not_and_not_right, imp_iff_not_or]
      rfl
    rw [eraseTree, get?_keep root]
    simp only [kept, ite_not]

end Update

theorem mem_children {name : String} :
    name ∈ s.children place ↔ (s.get? (place ++ [name])).isSome = true := by
  rw [get?_of_ne (by simp), children, List.mem_mergeSort, List.mem_filterMap]
  constructor
  · rintro ⟨⟨key, entry⟩, member, last⟩
    split at last
    · rename_i parent
      obtain ⟨init, rfl⟩ := List.getLast?_eq_some_iff.mp last
      rw [List.dropLast_concat] at parent
      subst parent
      rw [List.lookup_isSome_iff]
      exact ⟨_, member, by simp⟩
    · cases last
  · intro there
    rw [← get?_of_ne (by simp)] at there
    obtain ⟨entry, found⟩ := Option.isSome_iff_exists.mp there
    exact ⟨(place ++ [name], entry), mem_of_get? (by simp) found, by simp⟩

theorem get?_of_children_isEmpty (empty : (s.children place).isEmpty = true) (name : String) :
    s.get? (place ++ [name]) = none := by
  cases found : s.get? (place ++ [name]) with
  | none => rfl
  | some entry =>
      have child : name ∈ s.children place := by
        rw [children, List.mem_mergeSort, List.mem_filterMap]
        exact ⟨_, mem_of_get? (by simp) found, by simp⟩
      rw [List.isEmpty_iff] at empty
      rw [empty] at child
      cases child

/-- The tree as it is seen from the working directory `cwd`. -/
structure TreeAt (cwd : Location) (s : Store) : Prop where
  here : s.cwd = cwd

namespace TreeAt

variable {cwd : Location}

theorem names (tree : s.TreeAt cwd) : ∀ name ∈ cwd, IsUsableName name := tree.here ▸ s.usable

theorem insert (tree : s.TreeAt cwd) : (s.insert place entry).TreeAt cwd := ⟨cwd_insert.trans tree.here⟩

theorem erase (tree : s.TreeAt cwd) : (s.erase place).TreeAt cwd := ⟨tree.here⟩

theorem eraseTree (tree : s.TreeAt cwd) : (s.eraseTree place).TreeAt cwd := ⟨tree.here⟩

end TreeAt

theorem start_eq_ok {path : String} {start : Location} :
    s.start path = .ok start ↔
      ('\x00' ∉ path.toList ∧ path ≠ "" ∧ path.utf8ByteSize < pathLimit) ∧
        start = if Path.isAbsolute path then [] else s.cwd := by
  simp only [Store.start]
  by_cases nul : path.toList.contains '\x00' = true
  · have inside : '\x00' ∈ path.toList := by simpa using nul
    simp [inside]
  · have outside : '\x00' ∉ path.toList := by simpa using nul
    rw [if_neg nul]
    by_cases empty : path = ""
    · simp [empty]
    · rw [if_neg empty]
      by_cases long : pathLimit ≤ path.utf8ByteSize
      · rw [if_pos long]
        simp [Nat.not_lt.mpr long]
      · rw [if_neg long, Except.ok.injEq]
        exact ⟨fun same => ⟨⟨outside, empty, Nat.not_le.mp long⟩, same.symm⟩, fun found => found.2.symm⟩

/-- Following names through directories leads where the names lead. -/
theorem descend_eq_ok {list : List String} (filled : "" ∉ list)
    (found : s.descend place list = .ok other) : other = Path.follow place list := by
  induction list generalizing place with
  | nil =>
      cases found
      rfl
  | cons name rest ih =>
      rw [List.mem_cons, not_or] at filled
      have moved : Path.follow place (name :: rest) = Path.follow (Path.move place name) rest := rfl
      rw [moved, Path.move]
      simp only [descend] at found
      split at found
      · rename_i here
        rw [if_pos (Or.inr here)]
        exact ih filled.2 found
      · rename_i notHere
        rw [if_neg fun idle => idle.elim (fun empty => filled.1 empty.symm) notHere]
        split at found
        · rename_i up
          rw [if_pos up]
          exact ih filled.2 found
        · rename_i down
          rw [if_neg down]
          split at found
          · cases found
          · split at found
            · cases found
            · split at found
              · exact ih filled.2 found
              · cases found
              · cases found

theorem descend_append (first second : List String) :
    s.descend place (first ++ second) = (s.descend place first).bind fun l => s.descend l second := by
  induction first generalizing place with
  | nil => rfl
  | cons name rest ih =>
      simp only [List.cons_append, descend]
      split
      · exact ih
      · split
        · exact ih
        · split
          · rfl
          · split
            · rfl
            · split
              · exact ih
              · rfl
              · rfl

theorem short_of_descend {list : List String} (found : s.descend place list = .ok other) :
    ∀ name ∈ list, name ≠ "." → name ≠ ".." → name.utf8ByteSize ≤ nameLimit := by
  induction list generalizing place with
  | nil => exact fun name member => absurd member List.not_mem_nil
  | cons first rest ih =>
      intro name member notHere notUp
      simp only [descend] at found
      rcases List.mem_cons.mp member with rfl | later
      · rw [if_neg notHere, if_neg notUp] at found
        split at found
        · cases found
        · split at found
          · cases found
          · rename_i short
            exact Nat.not_lt.mp short
      · split at found
        · exact ih found name later notHere notUp
        · split at found
          · exact ih found name later notHere notUp
          · split at found
            · cases found
            · split at found
              · cases found
              · split at found
                · exact ih found name later notHere notUp
                · cases found
                · cases found

/-- What a path names, up to its last name. -/
theorem target_eq_ok {path : String} {target : Target} (found : s.target path = .ok target) :
    ∃ start, s.start path = .ok start ∧
      (Path.names path = [] ∧ target = .self start .root ∨
        ∃ init last parent, Path.names path = init ++ [last] ∧ s.descend start init = .ok parent ∧
          (last = "." ∧ target = .self parent .here ∨
            last = ".." ∧ target = .self parent.dropLast .above ∨
            last ≠ "." ∧ last ≠ ".." ∧ s.get? parent = some .directory ∧
              last.utf8ByteSize ≤ nameLimit ∧
              target = .named parent last (Path.hasTrailingSlash path))) := by
  simp only [Store.target, bind, Except.bind] at found
  split at found
  · cases found
  · rename_i start started
    refine ⟨start, started, ?_⟩
    split at found
    · rename_i none
      cases found
      exact Or.inl ⟨List.getLast?_eq_none_iff.mp none, rfl⟩
    · rename_i last ends
      obtain ⟨init, split⟩ := List.getLast?_eq_some_iff.mp ends
      rw [split, List.dropLast_concat] at found
      right
      split at found
      · cases found
      · rename_i parent descended
        refine ⟨init, last, parent, split, descended, ?_⟩
        split at found
        · rename_i here
          cases found
          exact Or.inl ⟨here, rfl⟩
        · rename_i notHere
          split at found
          · rename_i up
            cases found
            exact Or.inr (Or.inl ⟨up, rfl⟩)
          · rename_i notUp
            split at found
            · cases found
            · rename_i directory
              split at found
              · cases found
              · rename_i short
                cases found
                exact Or.inr (Or.inr ⟨notHere, notUp, not_not.mp directory, Nat.not_lt.mp short, rfl⟩)

/-- The last name of a path is looked up in a directory. -/
theorem directory_of_named {path : String} {parent : Location} {name : String} {slash : Bool}
    (found : s.target path = .ok (.named parent name slash)) : s.get? parent = some .directory := by
  obtain ⟨start, -, ⟨-, other⟩ | ⟨init, last, parent', -, -, ends⟩⟩ := target_eq_ok found
  · cases other
  · rcases ends with ⟨-, other⟩ | ⟨-, other⟩ | ⟨-, -, directory, -, same⟩
    · cases other
    · cases other
    · cases same
      exact directory

end Store

namespace Text

variable {α : Type} [DecidableEq α] {sep : α}

theorem mem_of_mem_cut {xs piece : List α} (member : piece ∈ cut sep xs) {x : α} (inside : x ∈ piece) :
    x ∈ xs := by
  induction xs generalizing piece with
  | nil =>
      cases List.mem_singleton.mp member
      exact inside
  | cons y xs ih =>
      by_cases same : y = sep
      · subst same
        rw [cut_cons_self] at member
        rcases List.mem_cons.mp member with rfl | later
        · cases inside
        · exact List.mem_cons_of_mem _ (ih later inside)
      · rw [cut_cons_of_ne same] at member
        cases pieces : cut sep xs with
        | nil => exact absurd pieces (cut_ne_nil sep xs)
        | cons first rest =>
            rw [pieces] at ih member
            rcases List.mem_cons.mp member with rfl | later
            · rcases List.mem_cons.mp inside with rfl | old
              · exact List.mem_cons_self
              · exact List.mem_cons_of_mem _ (ih List.mem_cons_self old)
            · exact List.mem_cons_of_mem _ (ih (List.mem_cons_of_mem _ later) inside)

end Text

namespace Path

theorem not_mem_names (path : String) : "" ∉ names path := by
  simp [names]

theorem mem_of_mem_names {path name : String} (member : name ∈ names path) {c : Char}
    (inside : c ∈ name.toList) : c ∈ path.toList := by
  obtain ⟨piece, found, rfl⟩ := List.mem_map.mp (List.mem_filter.mp member).1
  rw [String.toList_ofList] at inside
  exact Text.mem_of_mem_cut found inside

theorem follow_filter (place : List String) (list : List String) :
    follow place (list.filter (· ≠ "")) = follow place list := by
  induction list generalizing place with
  | nil => rfl
  | cons first rest ih =>
      by_cases empty : first = ""
      · subst empty
        exact ih place
      · rw [List.filter_cons_of_pos (by simpa using empty)]
        exact ih (move place first)

theorem place_eq_names (cwd : Location) (path : String) :
    place cwd path = follow (if isAbsolute path then [] else cwd) (names path) :=
  (follow_filter _ _).symm

end Path

namespace Store

variable {s : Store} {place other : Location} {entry : Entry} {path : String}

/-- The last name of a path is a name that an entry can have. -/
theorem usable_of_named {parent : Location} {name : String} {slash : Bool}
    (found : s.target path = .ok (.named parent name slash)) : IsUsableName name := by
  obtain ⟨start, started, ⟨-, other⟩ | ⟨init, last, parent', split, -, ends⟩⟩ := target_eq_ok found
  · cases other
  · rcases ends with ⟨-, other⟩ | ⟨-, other⟩ | ⟨notHere, notUp, -, short, same⟩
    · cases other
    · cases other
    · cases same
      have member : name ∈ Path.names path := by simp [split]
      obtain ⟨element, filled⟩ := List.mem_filter.mp member
      have noNul := (start_eq_ok.mp started).1.1
      exact ⟨⟨of_decide_eq_true filled, notHere, notUp, Path.not_mem_of_mem_elements element⟩,
        fun nul => noNul (Path.mem_of_mem_names member nul), short⟩

/-- An entry fits where a path leads, unless it would cover a directory. -/
theorem fits_of_named {parent : Location} {name : String} {slash : Bool}
    (leads : s.target path = .ok (.named parent name slash))
    (covers : entry = .directory ∨ s.get? (parent ++ [name]) ≠ some .directory) :
    s.Fits (parent ++ [name]) entry := by
  refine ⟨by simp, ?_, ?_, covers⟩
  · intro other member
    rcases List.mem_append.mp member with above | last
    · exact usable_of_get? (directory_of_named leads) other above
    · rw [List.mem_singleton.mp last]
      exact usable_of_named leads
  · rw [List.dropLast_concat]
    exact directory_of_named leads

theorem target_named {parent : Location} {name : String} {slash : Bool}
    (found : s.target path = .ok (.named parent name slash)) :
    Path.place s.cwd path = parent ++ [name] := by
  obtain ⟨start, started, ⟨-, other⟩ | ⟨init, last, parent', split, descended, ends⟩⟩ :=
    target_eq_ok found
  · cases other
  · have filled := Path.not_mem_names path
    rw [split, List.mem_append, not_or] at filled
    rw [Path.place_eq_names, split, Path.follow_append, ← (start_eq_ok.mp started).2,
      ← descend_eq_ok filled.1 descended]
    rcases ends with ⟨-, other⟩ | ⟨-, other⟩ | ⟨notHere, notUp, -, -, same⟩
    · cases other
    · cases other
    · cases same
      have nonempty : name ≠ "" := by
        rintro rfl
        exact filled.2 (List.mem_singleton_self _)
      have moved : Path.follow parent [name] = Path.move parent name := rfl
      rw [moved, Path.move, if_neg (by simp [nonempty, notHere]), if_neg notUp]

theorem target_self {dots : Dots} (found : s.target path = .ok (.self place dots)) :
    Path.place s.cwd path = place := by
  obtain ⟨start, started, ⟨none, same⟩ | ⟨init, last, parent, split, descended, ends⟩⟩ :=
    target_eq_ok found
  · cases same
    rw [Path.place_eq_names, none]
    exact (start_eq_ok.mp started).2.symm
  · have filled := Path.not_mem_names path
    rw [split, List.mem_append, not_or] at filled
    rw [Path.place_eq_names, split, Path.follow_append, ← (start_eq_ok.mp started).2,
      ← descend_eq_ok filled.1 descended]
    rcases ends with ⟨rfl, same⟩ | ⟨rfl, same⟩ | ⟨-, -, -, -, other⟩
    · cases same
      rfl
    · cases same
      rfl
    · cases other

theorem exists_locate (found : s.find path = .ok entry) : ∃ place, s.locate path = .ok (place, entry) := by
  rw [find] at found
  cases located : s.locate path with
  | error reason =>
      rw [located] at found
      cases found
  | ok result =>
      obtain ⟨place, entry'⟩ := result
      rw [located] at found
      cases found
      exact ⟨place, rfl⟩

/-- What is found at a path is what is there, or a directory that the path names by dots. -/
theorem locate_cases (found : s.locate path = .ok (place, entry)) :
    place = Path.place s.cwd path ∧
      (s.get? place = some entry ∨ entry = .directory ∧ ∃ dots, s.target path = .ok (.self place dots)) := by
  simp only [locate, bind, Except.bind] at found
  split at found
  · cases found
  · rename_i target here
    split at found
    · rename_i dots
      cases found
      exact ⟨(target_self here).symm, Or.inr ⟨rfl, dots, here⟩⟩
    · split at found
      · cases found
      · rename_i inside
        cases found
        exact ⟨(target_named here).symm, Or.inl inside⟩
      · rename_i inside
        split at found
        · cases found
        · cases found
          exact ⟨(target_named here).symm, Or.inl inside⟩

theorem TreeAt.place_of_locate {cwd : Location} (tree : s.TreeAt cwd)
    (found : s.locate path = .ok (place, entry)) : place = Path.place cwd path :=
  tree.here ▸ (locate_cases found).1

theorem TreeAt.file_of_locate {cwd : Location} (tree : s.TreeAt cwd) {contents : Bytes} {executable : Bool}
    (found : s.locate path = .ok (place, .file contents executable)) :
    place = Path.place cwd path ∧ s.get? place = some (.file contents executable) := by
  obtain ⟨rfl, there | ⟨impossible, -⟩⟩ := locate_cases found
  · exact ⟨by rw [tree.here], there⟩
  · cases impossible

/-- What is read is a file that is there and may be read. -/
theorem TreeAt.file_of_readFile {cwd : Location} (tree : s.TreeAt cwd) {contents : Bytes}
    (read : s.readFile path = .ok contents) :
    (∃ executable, s.get? (Path.place cwd path) = some (.file contents executable)) ∧
      (s.rule (Path.place cwd path)).unreadable = false := by
  rw [readFile] at read
  split at read
  · cases read
  · rename_i place entry located
    split at read
    · cases read
    · rename_i readable
      split at read
      · cases read
      · rename_i bytes executable
        cases read
        obtain ⟨rfl, there⟩ := tree.file_of_locate located
        exact ⟨⟨executable, there⟩, Bool.eq_false_iff.mpr readable⟩

theorem TreeAt.file_of_find {cwd : Location} (tree : s.TreeAt cwd) {contents : Bytes} {executable : Bool}
    (found : s.find path = .ok (.file contents executable)) :
    s.get? (Path.place cwd path) = some (.file contents executable) := by
  obtain ⟨place, located⟩ := exists_locate found
  obtain ⟨rfl, there⟩ := tree.file_of_locate located
  exact there

end Store

end DawnC
