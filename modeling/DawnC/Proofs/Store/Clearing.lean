import DawnC.Proofs.Store.Making
import DawnC.Proofs.Store.Removal

set_option autoImplicit false

namespace DawnC

namespace Store

open DawnC.Path (Normal IsName)

variable {s t : Store} {cwd place : Location} {p : Normal} {name : String} {start : Location}

theorem locate_of_find_error {path : String} {reason : FileFault.Reason}
    (failed : s.find path = .error reason) : s.locate path = .error reason := by
  rw [find] at failed
  cases located : s.locate path with
  | error other =>
      rw [located] at failed
      cases failed
      rfl
  | ok found =>
      rw [located] at failed
      cases failed

/-- A path that can be started is not lost, though it may be bad. -/
theorem start_text_ne_notFound : s.start p.text ≠ .error .notFound := by
  rw [start, if_neg p.text_ne_empty]
  split
  · simp
  · split
    · simp
    · simp

theorem start_of_under {more : List String} {valid : ∀ e ∈ more, IsName e}
    (started : s.start (p.under more valid).text = .ok start) : s.start p.text = .ok start := by
  obtain ⟨⟨noNul, -, short⟩, here⟩ := start_eq_ok.mp started
  have shorter := (p.size_under valid).1
  rw [Normal.isAbsolute_text] at here
  refine start_eq_ok.mpr ⟨⟨?_, p.text_ne_empty, by omega⟩, ?_⟩
  · apply Path.not_mem_textOf (by decide) (by decide)
    intro e member nul
    have inside : e ∈ (p.under more valid).elements := by
      rw [Normal.elements_under]
      exact List.mem_append_left _ member
    apply noNul
    apply Path.mem_of_mem_names _ nul
    rw [Normal.names_text, if_neg fun empty => by rw [empty.2] at inside; cases inside]
    exact inside
  · rw [Normal.isAbsolute_text]
    exact here

/-- Following the elements of a path comes to what the path finds. -/
theorem TreeAt.descend_elements (tree : s.TreeAt cwd) (started : s.start p.text = .ok start) :
    s.descend start (List.replicate p.ups ".." ++ p.names) = (s.find p.text).bind fun entry =>
      if entry = .directory then .ok (p.place cwd) else .error .notDirectory := by
  rcases List.eq_nil_or_concat p.names with level | ⟨init, last, split⟩
  · obtain ⟨⟨noNul, -, size⟩, begins⟩ := start_eq_ok.mp started
    rw [Normal.isAbsolute_text, tree.here] at begins
    rw [find_level level ⟨noNul, size, by simp [level]⟩, level, List.append_nil, descend_ups, begins,
      Normal.place, level, List.append_nil]
    rfl
  · rw [List.concat_eq_append] at split
    have isName : IsName last := p.valid last (by simp [split])
    have leads := target_down split started
    rw [split, ← List.append_assoc, descend_append]
    cases descended : s.descend start (List.replicate p.ups ".." ++ init) with
    | error reason =>
        rw [descended] at leads
        rw [find_of_target_error leads]
        rfl
    | ok parent =>
        rw [descended] at leads
        change s.target p.text = s.named? parent last at leads
        change s.descend parent [last] = _
        rw [descend, if_neg isName.2.1, if_neg isName.2.2.1]
        rw [named?] at leads
        by_cases lost : s.get? parent ≠ some .directory
        · rw [if_pos lost] at leads ⊢
          rw [find_of_target_error leads]
          rfl
        · rw [if_neg lost] at leads ⊢
          by_cases long : nameLimit < last.utf8ByteSize
          · rw [if_pos long] at leads ⊢
            rw [find_of_target_error leads]
            rfl
          · rw [if_neg long] at leads ⊢
            have here : p.place cwd = parent ++ [last] := by
              rw [← target_named leads, tree.here, Normal.place_text]
            cases there : s.get? (parent ++ [last]) with
            | none =>
                rw [find_of_free leads there]
                rfl
            | some entry =>
                have sees : s.sees p = some entry := by rw [tree.sees_down (by simp [split]), here, there]
                have found : s.find p.text = .ok entry := tree.find_text.mpr ⟨usable_of_target leads, sees⟩
                rw [found, here]
                cases entry with
                | directory => rfl
                | file contents executable => rfl

/-- Looking up a name below a path is looking up the path, and then the name. -/
theorem TreeAt.target_name_below (tree : s.TreeAt cwd) {valid : ∀ e ∈ [name], IsName e}
    (started : s.start (p.under [name] valid).text = .ok start) :
    s.target (p.under [name] valid).text = (s.find p.text).bind fun entry =>
      if entry = .directory then s.named? (p.place cwd) name else .error .notDirectory := by
  have followed := tree.descend_elements (start_of_under started)
  rw [target_down (n := p.under [name] valid) rfl started]
  change (s.descend start (List.replicate p.ups ".." ++ p.names)).bind _ = _
  rw [followed]
  cases s.find p.text with
  | error reason => rfl
  | ok entry =>
      cases entry with
      | directory => rfl
      | file contents executable => rfl

/-- A name is missing only in a directory that was removed, or in one that is missing itself. -/
theorem TreeAt.target_notFound (tree : s.TreeAt cwd) {valid : ∀ e ∈ [name], IsName e}
    (lost : s.target (p.under [name] valid).text = .error .notFound) :
    s.find p.text = .error .notFound ∨
      s.find p.text = .ok .directory ∧ s.get? (p.place cwd) ≠ some .directory := by
  cases started : s.start (p.under [name] valid).text with
  | error reason =>
      have same := (target_of_start_error started).symm.trans lost
      cases same
      exact absurd started start_text_ne_notFound
  | ok start =>
      have leads := (tree.target_name_below started).symm.trans lost
      cases found : s.find p.text with
      | error reason =>
          rw [found] at leads
          cases leads
          exact Or.inl rfl
      | ok entry =>
          rw [found] at leads
          cases entry with
          | file contents executable => cases leads
          | directory =>
              refine Or.inr ⟨rfl, ?_⟩
              intro there
              change s.named? (p.place cwd) name = _ at leads
              rw [named?, if_neg (not_not_intro there)] at leads
              split at leads
              · cases leads
              · cases leads

theorem TreeAt.none_of_notFound (tree : s.TreeAt cwd) (missing : s.find p.text = .error .notFound) :
    s.get? (p.place cwd) = none := by
  induction p using Normal.inductionOn with
  | level m level =>
      cases started : s.start m.text with
      | error reason =>
          rw [find_of_target_error (target_of_start_error started)] at missing
          cases missing
          exact absurd started start_text_ne_notFound
      | ok start =>
          obtain ⟨noNul, -, size⟩ := (start_eq_ok.mp started).1
          rw [find_level level ⟨noNul, size, by simp [level]⟩] at missing
          cases missing
  | down m last valid ih =>
      rw [Normal.place_under]
      cases there : s.get? (m.place cwd ++ [last]) with
      | none => rfl
      | some entry =>
          have directory := Store.parents there
          cases leads : s.target (m.under [last] valid).text with
          | error reason =>
              rw [find_of_target_error leads] at missing
              cases missing
              rcases tree.target_notFound leads with lost | ⟨-, removed⟩
              · rw [ih lost] at directory
                cases directory
              · exact absurd directory removed
          | ok target =>
              have sees : s.sees (m.under [last] valid) = some entry := by
                rw [tree.sees_down (by simp [Normal.under]), Normal.place_under, there]
              rw [tree.find_text.mpr ⟨usable_of_target leads, sees⟩] at missing
              cases missing

/-- What is stuck in a tree depends on that tree only. -/
theorem Stays.congr {root : Location} (down : root ≠ []) (stays : s.Stays root place)
    (same : ∀ other, root <+: other → t.rule other = s.rule other ∧ t.get? other = s.get? other) :
    t.Stays root place := by
  rw [stays_iff down] at stays ⊢
  obtain ⟨stuck, entry, found, below, above, isStuck⟩ := stays
  have each (p : Location) : (root.isPrefixOf p && (t.rule p).unreadable) =
      (root.isPrefixOf p && (s.rule p).unreadable) := by
    cases inside : root.isPrefixOf p with
    | false => rfl
    | true => rw [(same p (List.isPrefixOf_iff_prefix.mp inside)).1]
  refine ⟨stuck, entry, (same stuck below).2.trans found, below, above, ?_⟩
  rw [← isStuck, Store.isStuck, Store.isStuck, (same stuck below).1]
  simp only [each]

/-- What was at the place or below it is gone as far as it can be removed, and all else is as it was. -/
structure Cleared (place : Location) (s t : Store) : Prop where
  here : t.cwd = s.cwd
  rules : t.rules = s.rules
  get?_eq : ∀ other, t.get? other = if place <+: other ∧ ¬ s.Stays place other then none else s.get? other

namespace Cleared

theorem treeAt (cleared : Cleared place s t) (tree : s.TreeAt cwd) : t.TreeAt cwd :=
  ⟨cleared.here.trans tree.here⟩

theorem eraseTree (down : place ≠ []) : Cleared place s (s.eraseTree place) :=
  ⟨rfl, rfl, get?_eraseTree down⟩

theorem of_none (free : s.get? place = none) : Cleared place s s := by
  refine ⟨rfl, rfl, fun other => ?_⟩
  split
  · rename_i below
    by_cases same : place = other
    · rw [← same, free]
    · exact Store.none_below (by simp [free]) below.1 same
  · rfl

/-- The directory of a tree that was removed is found as before, also from a working directory that went with
the tree. -/
theorem find_parent (cleared : Cleared (p.place cwd ++ [name]) s t) (tree : s.TreeAt cwd)
    (found : s.find p.text = .ok .directory) : t.find p.text = .ok .directory := by
  obtain ⟨usable, there⟩ := tree.find_text.mp found
  have tree' := cleared.treeAt tree
  refine tree'.find_text.mpr ⟨usable, ?_⟩
  by_cases level : p.names = []
  · exact sees_level level
  · rw [tree'.sees_down level, cleared.get?_eq, ← tree.sees_down level, there, if_neg]
    exact fun below => absurd below.1.length_le (by simp)

/-- What is stuck is left. -/
theorem stays (cleared : Cleared place s t) (down : place ≠ []) {other : Location}
    (stays : s.Stays place other) : t.Stays place other := by
  rw [stays_iff down] at stays ⊢
  obtain ⟨stuck, entry, found, below, above, isStuck⟩ := stays
  have left : s.Stays place stuck := (stays_iff down).mpr ⟨stuck, entry, found, below, List.prefix_rfl, isStuck⟩
  refine ⟨stuck, entry, ?_, below, above, ?_⟩
  · rw [cleared.get?_eq, if_neg fun gone => gone.2 left, found]
  · rw [← isStuck]
    simp only [Store.isStuck, rule, cleared.rules]

theorem stuckBelow_apart {root : Location} (cleared : Cleared place s t) (down : root ≠ [])
    (apart : ¬ place <+: root) (apart' : ¬ root <+: place) :
    t.stuckBelow root = [] ↔ s.stuckBelow root = [] := by
  rw [List.eq_nil_iff_forall_not_mem, List.eq_nil_iff_forall_not_mem]
  refine forall_congr' fun other => not_congr ?_
  rw [mem_stuckBelow down, mem_stuckBelow down]
  by_cases below : root <+: other
  · have outside : ¬ place <+: other := fun inside =>
      (List.prefix_or_prefix_of_prefix inside below).elim apart apart'
    have stuck : t.isStuck root other = s.isStuck root other := by
      simp only [isStuck, rule, cleared.rules]
    rw [cleared.get?_eq, if_neg fun inside => outside inside.1, stuck]
  · simp only [below, false_and, and_false]

end Cleared

theorem stuckBelow_of_none (down : place ≠ []) (free : s.get? place = none) : s.stuckBelow place = [] := by
  rw [List.eq_nil_iff_forall_not_mem]
  intro other member
  obtain ⟨⟨entry, found⟩, below, -⟩ := (mem_stuckBelow down).mp member
  by_cases same : place = other
  · rw [same, found] at free
    cases free
  · rw [directory_of_isPrefix found below same] at free
    cases free

theorem stuckBelow_of_leaf (down : place ≠ []) (released : (s.rule place).stays = false)
    (leaf : ∀ name, s.get? (place ++ [name]) = none) : s.stuckBelow place = [] := by
  rw [List.eq_nil_iff_forall_not_mem]
  intro other member
  obtain ⟨⟨entry, found⟩, ⟨more, rfl⟩, stuck⟩ := (mem_stuckBelow down).mp member
  cases more with
  | cons name more =>
      have split : place ++ name :: more = place ++ [name] ++ more := by simp
      rw [split] at found
      by_cases last : more = []
      · rw [last, List.append_nil, leaf name] at found
        cases found
      · have above := directory_above found last
        rw [leaf name] at above
        cases above
  | nil =>
      rw [List.append_nil, isStuck, released, Bool.false_or, List.any_eq_true] at stuck
      obtain ⟨above, upward, inside⟩ := stuck
      rw [Bool.and_eq_true, List.isPrefixOf_iff_prefix] at inside
      obtain ⟨way, different⟩ := Location.mem_above.mp upward
      exact different (way.eq_of_length_le inside.1.length_le)

theorem not_stays (free : s.stuckBelow place = []) (other : Location) : ¬ s.Stays place other := by
  rw [Stays, free, List.any_nil]
  exact Bool.false_ne_true

end Store

namespace FileAction

open Attempt (run_bind_ok run_tryCatch_error)
open Store (Cleared)
open DawnC.Path (Normal IsName)

variable {s : Store} {cwd : Location} {p : Normal} {name : String} {fault : FileFault}

theorem Removable.cleared {path : String} {place : Location} (removable : Removable s path place) :
    Cleared place s (s.erase place) ∧ s.stuckBelow place = [] := by
  have down := removable.ne_nil
  have leaf := removable.leaf
  obtain ⟨-, -, -, -, -, released, -⟩ := removable
  have loose := Store.stuckBelow_of_leaf down released leaf
  refine ⟨⟨rfl, rfl, fun other => ?_⟩, loose⟩
  rw [Store.get?_erase down]
  simp [Store.not_stays loose other]

/-- A tree in a directory that is found is removed, as far as nothing in it is stuck. -/
theorem removeTree_of_directory (tree : s.TreeAt cwd) (found : s.find p.text = .ok .directory)
    (valid : ∀ e ∈ [name], IsName e) (noNul : '\x00' ∉ name.toList)
    (short : name.utf8ByteSize ≤ nameLimit) :
    ∃ result t, (removeTree (p.under [name] valid).text).run s = (result, t) ∧
      Cleared (p.place cwd ++ [name]) s t ∧
      (result = .ok () ↔ s.stuckBelow (p.place cwd ++ [name]) = []) := by
  obtain ⟨usable, there⟩ := tree.find_text.mp found
  have named := elements_text_under p valid
  have filled := (p.under [name] valid).text_ne_empty
  have down : p.place cwd ++ [name] ≠ [] := by simp
  rcases remove_cases s (p.under [name] valid).text with ⟨fault, failed⟩ | ⟨place, removable, removed⟩
  · by_cases missing : fault.reason = .notFound
    · have free : s.get? (p.place cwd ++ [name]) = none := by
        rcases remove_notFound failed missing with lost | ⟨parent, last, slash, leads, free⟩
        · rcases tree.target_notFound lost with other | ⟨-, removed⟩
          · rw [found] at other
            cases other
          · exact Store.none_below removed (List.prefix_append _ _) (by simp)
        · rwa [tree.named_under valid leads] at free
      exact ⟨_, s, removeTree_of_missing named filled failed missing, .of_none free,
        by simp [Store.stuckBelow_of_none down free]⟩
    · obtain ⟨result, ran, outcome⟩ := removeTree_of_parts named filled failed missing
        (splitLast_under p valid) (tree.locate_text usable there) noNul short
      exact ⟨result, _, ran, .eraseTree down, outcome⟩
  · obtain ⟨cleared, loose⟩ := removable.cleared
    obtain ⟨parent, last, slash, leads, rfl, -⟩ := removable
    rw [tree.named_under valid leads] at cleared loose removed
    exact ⟨_, _, removeTree_of_removed named filled removed, cleared, by simp [loose]⟩

/-- In what is no directory nothing is removed; it is missing only if the directory is. -/
theorem remove_of_no_directory (tree : s.TreeAt cwd) (noDirectory : s.find p.text ≠ .ok .directory)
    (valid : ∀ e ∈ [name], IsName e) :
    ∃ fault, (remove (p.under [name] valid).text).run s = (.error fault, s) ∧
      (fault.reason = .notFound → s.find p.text = .error .notFound) := by
  cases leads : s.target (p.under [name] valid).text with
  | error reason =>
      refine ⟨_, Attempt.run_bind_error (run_target_error leads), ?_⟩
      rintro rfl
      exact (tree.target_notFound leads).resolve_right fun other => noDirectory other.1
  | ok target =>
      cases started : s.start (p.under [name] valid).text with
      | error reason =>
          rw [Store.target_of_start_error started] at leads
          cases leads
      | ok start =>
          rw [tree.target_name_below started] at leads
          cases found : s.find p.text with
          | error reason =>
              rw [found] at leads
              cases leads
          | ok entry =>
              rw [found] at leads
              cases entry with
              | directory => exact absurd found noDirectory
              | file contents executable => cases leads

section Parent

variable {path parent : String} (named : (path = "." || (Path.elements path).getLast? = some ".") = false)
  (filled : path ≠ "") (failed : (remove path).run s = (.error fault, s))
  (other : fault.reason ≠ .notFound) (parts : splitLast path = (parent, name))

include named filled failed other parts

theorem removeTree_of_lost (missing : s.find parent = .error .notFound) :
    (removeTree path).run s = (.ok (), s) := by
  have located := Store.locate_of_find_error missing
  rw [removeTree, if_neg filled, if_neg (by simp [named])]
  refine (run_tryCatch_error failed).trans ?_
  rw [if_neg other, parts]
  dsimp only
  rw [run_bind_ok (Attempt.run_get s), located]
  rfl

/-- What the directory should be is a file, or cannot be looked up. -/
theorem removeTree_of_blocked (noDirectory : s.find parent ≠ .ok .directory)
    (blocked : s.find parent ≠ .error .notFound) :
    ∃ fault, (removeTree path).run s = (.error fault, s) := by
  rw [removeTree, if_neg filled, if_neg (by simp [named])]
  rw [run_tryCatch_error failed, if_neg other, parts]
  dsimp only
  rw [run_bind_ok (Attempt.run_get s)]
  rw [Store.find] at noDirectory blocked
  cases located : s.locate parent with
  | error reason =>
      rw [located] at blocked
      split
      · rename_i lost
        cases lost
        exact absurd rfl blocked
      · exact ⟨_, rfl⟩
      · rename_i impossible
        cases impossible
      · rename_i impossible
        cases impossible
  | ok found =>
      obtain ⟨place, entry⟩ := found
      cases entry with
      | directory =>
          rw [located] at noDirectory
          exact absurd rfl noDirectory
      | file contents executable => exact ⟨_, rfl⟩

end Parent

theorem removeTree_of_notFound (tree : s.TreeAt cwd) (missing : s.find p.text = .error .notFound)
    (valid : ∀ e ∈ [name], IsName e) :
    (removeTree (p.under [name] valid).text).run s = (.ok (), s) ∧
      s.get? (p.place cwd ++ [name]) = none := by
  have named := elements_text_under p valid
  have filled := (p.under [name] valid).text_ne_empty
  have free := tree.none_of_notFound missing
  obtain ⟨fault, failed, -⟩ := remove_of_no_directory (p := p) tree (by simp [missing]) valid
  refine ⟨?_, Store.none_below (by simp [free]) (List.prefix_append _ _) (by simp)⟩
  by_cases lost : fault.reason = .notFound
  · exact removeTree_of_missing named filled failed lost
  · exact removeTree_of_lost named filled failed lost (splitLast_under p valid) missing

theorem removeTree_fails (tree : s.TreeAt cwd) (noDirectory : s.find p.text ≠ .ok .directory)
    (blocked : s.find p.text ≠ .error .notFound) (valid : ∀ e ∈ [name], IsName e) :
    ∃ fault, (removeTree (p.under [name] valid).text).run s = (.error fault, s) := by
  obtain ⟨fault, failed, missing⟩ := remove_of_no_directory tree noDirectory valid
  exact removeTree_of_blocked (elements_text_under p valid) (Normal.text_ne_empty _) failed
    (fun lost => blocked (missing lost)) (splitLast_under p valid) noDirectory blocked

/-- What is left of a tree whose directory has a usable path is stuck, or leads to what is. -/
theorem removeTree_under (tree : s.TreeAt cwd) (usable : p.IsUsable) {valid : ∀ e ∈ [name], IsName e}
    (noNul : '\x00' ∉ name.toList) (short : name.utf8ByteSize ≤ nameLimit) {t : Store}
    {result : Except FileFault Unit} (ran : (removeTree (p.under [name] valid).text).run s = (result, t)) :
    (result = .ok () → t.get? (p.place cwd ++ [name]) = none) ∧
      ∀ place, p.place cwd ++ [name] <+: place →
        t.get? place = none ∨ t.Stays (p.place cwd ++ [name]) place := by
  have down : p.place cwd ++ [name] ≠ [] := by simp
  -- without a directory for it there was no tree
  have missing (noDirectory : s.get? (p.place cwd) ≠ some .directory) (place : Location)
      (below : p.place cwd ++ [name] <+: place) : t.get? place = none := by
    apply ((removeTree_shrinks _).of_run ran).absent
    apply Store.none_below noDirectory ((List.prefix_append _ _).trans below)
    rintro rfl
    exact absurd below.length_le (by simp)
  by_cases found : s.sees p = some .directory
  · obtain ⟨result', t', ran', cleared, outcome⟩ :=
      removeTree_of_directory tree (tree.find_text.mpr ⟨usable, found⟩) valid noNul short
    rw [ran] at ran'
    cases ran'
    refine ⟨?_, ?_⟩
    · intro done
      rw [cleared.get?_eq, if_pos ⟨List.prefix_rfl, Store.not_stays (outcome.mp done) _⟩]
    · intro place below
      by_cases stays : s.Stays (p.place cwd ++ [name]) place
      · exact Or.inr (cleared.stays down stays)
      · rw [cleared.get?_eq, if_pos ⟨below, stays⟩]
        exact Or.inl rfl
  · have gone := missing fun there => found (tree.sees_of_get? there fun _ => rfl)
    exact ⟨fun _ => gone _ List.prefix_rfl, fun place below => Or.inl (gone place below)⟩

end FileAction

end DawnC
