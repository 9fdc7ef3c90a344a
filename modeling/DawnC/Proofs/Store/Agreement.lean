import DawnC.Proofs.Store.Directories

set_option autoImplicit false

namespace DawnC

namespace Store

variable {s t u : Store} {cwd base p : Location}

/-- A directory is at the place, or can be made there. -/
def Open (s : Store) (place : Location) : Prop :=
  s.IsFree place ∨ s.get? place = some .directory

/-- The same is at the place, and the same is allowed there. -/
def Alike (s t : Store) (place : Location) : Prop :=
  s.get? place = t.get? place ∧ s.rule place = t.rule place

theorem Alike.trans {place : Location} (first : Alike s t place) (second : Alike t u place) :
    Alike s u place := ⟨first.1.trans second.1, first.2.trans second.2⟩

theorem Alike.symm {place : Location} (alike : Alike s t place) : Alike t s place :=
  ⟨alike.1.symm, alike.2.symm⟩

theorem Alike.isOpen {place : Location} (alike : Alike s t place) (isOpen : s.Open place) : t.Open place := by
  rwa [Open, IsFree, ← alike.1, ← alike.2]

/-- The trees are alike at the place and below. Above it, and on the way to the base, they may differ in
directories that one of them has. -/
structure AgreeAt (cwd base p : Location) (s t : Store) : Prop where
  left : s.TreeAt cwd
  right : t.TreeAt cwd
  leftHere : s.get? cwd = some .directory
  rightHere : t.get? cwd = some .directory
  below : ∀ place, p <+: place → Alike s t place
  above : ∀ place, place <+: p ∨ place <+: base → Alike s t place ∨ s.Open place ∧ t.Open place

theorem Open.insert {place other : Location} {entry : Entry} (isOpen : s.Open other)
    (fits : s.Fits place entry) (apart : other ≠ place) : (s.insert place entry).Open other := by
  have alike : Alike s (s.insert place entry) other := by
    rw [Alike, get?_insert fits, if_neg apart, rule_congr rules_insert]
    exact ⟨rfl, rfl⟩
  exact alike.isOpen isOpen

namespace AgreeAt

theorem refl (tree : s.TreeAt cwd) (here : s.get? cwd = some .directory) (p : Location) :
    AgreeAt cwd base p s s :=
  ⟨tree, tree, here, here, fun _ _ => ⟨rfl, rfl⟩, fun _ _ => Or.inl ⟨rfl, rfl⟩⟩

theorem symm (agree : AgreeAt cwd base p s t) : AgreeAt cwd base p t s :=
  ⟨agree.right, agree.left, agree.rightHere, agree.leftHere,
    fun place down => (agree.below place down).symm,
    fun place up => (agree.above place up).imp Alike.symm And.symm⟩

theorem trans (first : AgreeAt cwd base p s t) (second : AgreeAt cwd base p t u) : AgreeAt cwd base p s u := by
  refine ⟨first.left, second.right, first.leftHere, second.rightHere, ?_, ?_⟩
  · exact fun place down => (first.below place down).trans (second.below place down)
  · intro place up
    rcases first.above place up with same | ⟨before, between⟩
    · rcases second.above place up with same' | ⟨between, after⟩
      · exact Or.inl (same.trans same')
      · exact Or.inr ⟨same.symm.isOpen between, after⟩
    · rcases second.above place up with same' | ⟨-, after⟩
      · exact Or.inr ⟨before, same'.isOpen between⟩
      · exact Or.inr ⟨before, after⟩

/-- A tree and what it becomes when nothing is done at the place and below. -/
theorem of_changes {makes touches : Location → Prop} (tree : s.TreeAt cwd)
    (here : s.get? cwd = some .directory) (here' : t.get? cwd = some .directory)
    (changes : Changes cwd makes touches s t)
    (below : ∀ place, p <+: place → ¬ makes place ∧ ¬ touches place)
    (above : ∀ place, place <+: p ∨ place <+: base → touches place →
      Alike s t place ∨ s.Open place ∧ t.Open place) : AgreeAt cwd base p s t := by
  obtain ⟨tree', outside⟩ := changes tree
  refine ⟨tree, tree', here, here', ?_, ?_⟩
  · intro place down
    obtain ⟨unmade, untouched⟩ := below place down
    obtain ⟨rule, same | ⟨made, -⟩⟩ := outside place untouched
    · exact ⟨same.symm, rule.symm⟩
    · exact absurd made unmade
  · intro place up
    by_cases touched : touches place
    · exact above place up touched
    · obtain ⟨rule, same | ⟨-, free, there⟩⟩ := outside place touched
      · exact Or.inl ⟨same.symm, rule.symm⟩
      · exact Or.inr ⟨Or.inl free, Or.inr there⟩

theorem of_made {makes : Location → Prop} (tree : s.TreeAt cwd) (here : s.get? cwd = some .directory)
    (changes : Changes cwd makes (fun _ => False) s t) (unmade : ∀ place, p <+: place → ¬ makes place) :
    AgreeAt cwd base p s t :=
  of_changes tree here (changes.kept tree here not_false) changes
    (fun place down => ⟨unmade place down, not_false⟩) fun _ _ touched => touched.elim

theorem start (agree : AgreeAt cwd base p s t) (path : String) : s.start path = t.start path := by
  rw [Store.start, Store.start, agree.left.here, agree.right.here]

theorem insert (agree : AgreeAt cwd base p s t) {place : Location} {entry : Entry}
    (fits : s.Fits place entry) (fits' : t.Fits place entry)
    (alike : Alike s t place ∨ ¬ p <+: place ∧ entry = .directory) :
    AgreeAt cwd base p (s.insert place entry) (t.insert place entry) := by
  have stays {u : Store} (fits : u.Fits place entry) (here : u.get? cwd = some .directory) :
      (u.insert place entry).get? cwd = some .directory := by
    rw [get?_insert fits]
    split
    · rename_i same
      rw [fits.2.2.2.resolve_right (not_not_intro (same ▸ here))]
    · exact here
  have moved {other : Location} (alike : Alike s t other) :
      Alike (s.insert place entry) (t.insert place entry) other := by
    rw [Alike, get?_insert fits, get?_insert fits', rule_congr rules_insert, rule_congr rules_insert, alike.1,
      alike.2]
    exact ⟨rfl, rfl⟩
  refine ⟨agree.left.insert, agree.right.insert, stays fits agree.leftHere, stays fits' agree.rightHere,
    fun other down => moved (agree.below other down), ?_⟩
  intro other up
  by_cases here : other = place
  · rcases alike with same | ⟨-, rfl⟩
    · exact Or.inl (moved (here ▸ same))
    · right
      rw [Open, Open, get?_insert fits, get?_insert fits', if_pos here, if_pos here]
      exact ⟨Or.inr rfl, Or.inr rfl⟩
  · rcases agree.above other up with same | ⟨isOpen, isOpen'⟩
    · exact Or.inl (moved same)
    · exact Or.inr ⟨isOpen.insert fits here, isOpen'.insert fits' here⟩

theorem insert_left (agree : AgreeAt cwd base p s t) {place : Location} (fits : s.Fits place .directory)
    (there : t.get? place = some .directory) (above : ¬ p <+: place) :
    AgreeAt cwd base p (s.insert place .directory) t := by
  have moved {other : Location} (apart : other ≠ place) (alike : Alike s t other) :
      Alike (s.insert place .directory) t other := by
    rw [Alike, get?_insert fits, if_neg apart, rule_congr rules_insert]
    exact alike
  refine ⟨agree.left.insert, agree.right, ?_, agree.rightHere, ?_, ?_⟩
  · rw [get?_insert fits, agree.leftHere, ite_self]
  · intro other down
    refine moved ?_ (agree.below other down)
    rintro rfl
    exact above down
  · intro other up
    by_cases here : other = place
    · right
      rw [Open, get?_insert fits, if_pos here, here]
      exact ⟨Or.inr rfl, Or.inr there⟩
    · rcases agree.above other up with same | ⟨isOpen, isOpen'⟩
      · exact Or.inl (moved here same)
      · exact Or.inr ⟨isOpen.insert fits here, isOpen'⟩

end AgreeAt

open DawnC.Path (Normal IsName)

/-- From a directory that is there, the rest of a path is followed. -/
theorem TreeAt.target_under (tree : s.TreeAt cwd) {m : Normal} (usable : m.IsUsable)
    (directory : s.get? (m.place cwd) = some .directory) {init : List String} {last : String}
    (valid : ∀ name ∈ init ++ [last], IsName name) {start : Location}
    (started : s.start (m.under (init ++ [last]) valid).text = .ok start) :
    s.target (m.under (init ++ [last]) valid).text =
      (s.descend (m.place cwd) init).bind fun parent => s.named? parent last := by
  have split : (m.under (init ++ [last]) valid).names = m.names ++ init ++ [last] :=
    (List.append_assoc m.names init [last]).symm
  have begins : start = if m.rooted then [] else cwd := by
    rw [(start_eq_ok.mp started).2, Normal.isAbsolute_text, tree.here]
    rfl
  have descended : s.descend start (List.replicate m.ups ".." ++ (m.names ++ init)) =
      s.descend (m.place cwd) init := by
    rw [← List.append_assoc, descend_append, descend_append, begins, descend_ups]
    have down := descend_names m.valid usable.short directory
    exact congrArg (Except.bind · fun l => s.descend l init) down
  rw [← descended]
  exact target_down split started

theorem descend_congr (same : ∀ place, p <+: place → s.get? place = t.get? place) {place : Location}
    (inside : p <+: place) {list : List String} (names : ∀ name ∈ list, IsName name) :
    s.descend place list = t.descend place list := by
  induction list generalizing place with
  | nil => rfl
  | cons first rest ih =>
      have isName := names first List.mem_cons_self
      have deeper : p <+: place ++ [first] := inside.trans (List.prefix_append _ _)
      have later := ih deeper fun name member => names name (List.mem_cons_of_mem _ member)
      rw [descend, descend, if_neg isName.2.1, if_neg isName.2.2.1, if_neg isName.2.1,
        if_neg isName.2.2.1, same _ inside, same _ deeper, later]

/-- A path leads to the same place in both stores, and the same is there. -/
structure SameAt (s t : Store) (path : String) : Prop where
  leads : s.target path = t.target path
  there : ∀ parent name slash, s.target path = .ok (.named parent name slash) →
    Alike s t (parent ++ [name])

theorem SameAt.locate {path : String} (same : SameAt s t path) : s.locate path = t.locate path := by
  rw [Store.locate, Store.locate, ← same.leads]
  cases leads : s.target path with
  | error reason => rfl
  | ok target =>
      cases target with
      | self place dots => rfl
      | named parent name slash =>
          dsimp only [bind, Except.bind]
          rw [(same.there parent name slash leads).1]

theorem SameAt.find {path : String} (same : SameAt s t path) : s.find path = t.find path := by
  rw [Store.find, Store.find, same.locate]

theorem SameAt.readFile {path : String} {contents : Bytes} {executable : Bool} (same : SameAt s t path)
    (found : s.find path = .ok (.file contents executable)) : s.readFile path = t.readFile path := by
  obtain ⟨parent, name, leads, there⟩ := target_of_find_file found
  have located : s.locate path = .ok (parent ++ [name], .file contents executable) := by
    rw [Store.locate, leads]
    dsimp only [bind, Except.bind]
    rw [there]
    rfl
  rw [Store.readFile, Store.readFile, ← same.locate, located]
  dsimp only
  rw [(same.there parent name false leads).2]

theorem AgreeAt.target_under (agree : AgreeAt cwd base p s t) {m : Normal} (usable : m.IsUsable)
    (directory : s.get? (m.place cwd) = some .directory)
    (directory' : t.get? (m.place cwd) = some .directory) {init : List String} {last : String}
    (valid : ∀ name ∈ init ++ [last], IsName name)
    (descends : s.descend (m.place cwd) init = t.descend (m.place cwd) init) :
    s.target (m.under (init ++ [last]) valid).text = t.target (m.under (init ++ [last]) valid).text := by
  cases started : s.start (m.under (init ++ [last]) valid).text with
  | error reason =>
      rw [target_of_start_error started, target_of_start_error (agree.start _ ▸ started)]
  | ok start =>
      rw [agree.left.target_under usable directory valid started,
        agree.right.target_under usable directory' valid (agree.start _ ▸ started), ← descends]
      cases descended : s.descend (m.place cwd) init with
      | error reason => rfl
      | ok parent =>
          have there := (directory_of_descend descended).1 directory
          have there' := (directory_of_descend (descends ▸ descended)).1 directory'
          change s.named? parent last = t.named? parent last
          rw [named?, named?, there, there']

/-- What a path below a directory leads to lies below it. -/
theorem TreeAt.named_under (tree : s.TreeAt cwd) {m : Normal} {more : List String}
    (valid : ∀ name ∈ more, IsName name) {parent : Location} {name : String} {slash : Bool}
    (leads : s.target (m.under more valid).text = .ok (.named parent name slash)) :
    parent ++ [name] = m.place cwd ++ more := by
  rw [← target_named leads, tree.here, Normal.place_text, Normal.place_under]

/-- Trees that agree at a place agree on the paths below it. -/
theorem AgreeAt.sameAt {d : Normal} (agree : AgreeAt cwd base (d.place cwd) s t) (usable : d.IsUsable)
    (directory : s.get? (d.place cwd) = some .directory) {more : List String}
    (valid : ∀ name ∈ more, IsName name) (filled : more ≠ []) :
    SameAt s t (d.under more valid).text := by
  obtain ⟨init, last, split⟩ := (List.eq_nil_or_concat more).resolve_left filled
  rw [List.concat_eq_append] at split
  subst split
  have directory' : t.get? (d.place cwd) = some .directory :=
    (agree.below _ List.prefix_rfl).1.symm.trans directory
  constructor
  · apply agree.target_under usable directory directory'
    exact descend_congr (fun place down => (agree.below place down).1) List.prefix_rfl
      fun name member => valid name (List.mem_append_left _ member)
  · intro parent name slash leads
    rw [agree.left.named_under valid leads]
    exact agree.below _ (List.prefix_append _ _)

end Store

namespace FileAction

open Attempt (Respects Sustains run_bind_ok run_bind_error run_tryCatch_ok run_tryCatch_error)
open Store (AgreeAt SameAt)
open DawnC.Path (Normal IsName)

variable {s t : Store} {path : String} {cwd base p : Location}

theorem eq_of_ensureDirectory_error {fault : FileFault}
    (failed : (ensureDirectory path).run s = (.error fault, t)) : t = s := by
  rcases ensureDirectory_cases s path with ⟨fault', same⟩ | ⟨-, ran⟩ | ⟨parent, name, slash, -, -, ran⟩
  · rw [same] at failed
    cases failed
    rfl
  · rw [ran] at failed
    cases failed
  · rw [ran] at failed
    cases failed

/-- Where a path leads to the same, a directory is made in both trees or in none. -/
theorem ensureDirectory_sameAt (agree : AgreeAt cwd base p s t) (same : SameAt s t path) :
    ((ensureDirectory path).run s).1 = ((ensureDirectory path).run t).1 ∧
      AgreeAt cwd base p ((ensureDirectory path).run s).2 ((ensureDirectory path).run t).2 := by
  cases leads : s.target path with
  | error reason =>
      rw [ensureDirectory_of_error leads, ensureDirectory_of_error (same.leads ▸ leads)]
      exact ⟨rfl, agree⟩
  | ok target =>
      have leads' := leads
      rw [same.leads] at leads'
      cases target with
      | self place dots =>
          have found := Store.find_of_self leads
          rw [ensureDirectory_of_directory found, ensureDirectory_of_directory (same.find ▸ found)]
          exact ⟨rfl, agree⟩
      | named parent name slash =>
          obtain ⟨equal, rule⟩ := same.there parent name slash leads
          cases there : s.get? (parent ++ [name]) with
          | none =>
              cases denied : (s.rule (parent ++ [name])).unwritable with
              | true =>
                  rw [ensureDirectory_of_denied leads there denied,
                    ensureDirectory_of_denied leads' (equal ▸ there) (rule ▸ denied)]
                  exact ⟨rfl, agree⟩
              | false =>
                  rw [ensureDirectory_of_free leads ⟨there, denied⟩,
                    ensureDirectory_of_free leads' ⟨equal ▸ there, rule ▸ denied⟩]
                  exact ⟨rfl, agree.insert (Store.fits_of_named leads (Or.inl rfl))
                    (Store.fits_of_named leads' (Or.inl rfl)) (Or.inl ⟨equal, rule⟩)⟩
          | some entry =>
              cases entry with
              | directory =>
                  have found := Store.find_of_directory leads there
                  rw [ensureDirectory_of_directory found,
                    ensureDirectory_of_directory (same.find ▸ found)]
                  exact ⟨rfl, agree⟩
              | file contents executable =>
                  rw [ensureDirectory_of_file leads there,
                    ensureDirectory_of_file leads' (equal ▸ there)]
                  exact ⟨rfl, agree⟩

theorem writeFileAs_sameAt (agree : AgreeAt cwd base p s t) (same : SameAt s t path) (executable : Bool)
    (contents : Bytes) :
    ((writeFileAs executable path contents).run s).1 =
        ((writeFileAs executable path contents).run t).1 ∧
      AgreeAt cwd base p ((writeFileAs executable path contents).run s).2
        ((writeFileAs executable path contents).run t).2 := by
  cases leads : s.target path with
  | error reason =>
      rw [writeFileAs, run_bind_error (run_target_error leads),
        run_bind_error (run_target_error (same.leads ▸ leads))]
      exact ⟨rfl, agree⟩
  | ok target =>
      have leads' := leads
      rw [same.leads] at leads'
      rw [writeFileAs, run_bind_ok (run_target_ok leads), run_bind_ok (run_target_ok leads')]
      cases target with
      | self place dots => exact ⟨rfl, agree⟩
      | named parent name slash =>
          obtain ⟨equal, rule⟩ := same.there parent name slash leads
          dsimp only
          rw [run_bind_ok (Attempt.run_get s), run_bind_ok (Attempt.run_get t), ← equal]
          split
          · exact ⟨rfl, agree⟩
          · rename_i free
            have covers : s.get? (parent ++ [name]) ≠ some .directory := by
              intro directory
              simp [directory] at free
            rw [run_bind_ok (Attempt.run_get s), run_bind_ok (Attempt.run_get t), ← rule]
            split
            · exact ⟨rfl, agree⟩
            · rw [run_bind_ok (Attempt.run_get s), run_bind_ok (Attempt.run_get t), ← equal]
              have written (mode : Bool) := agree.insert
                (Store.fits_of_named leads (Or.inr covers) : s.Fits _ (.file contents mode))
                (Store.fits_of_named leads' (Or.inr (equal ▸ covers))) (Or.inl ⟨equal, rule⟩)
              cases s.get? (parent ++ [name]) with
              | none => exact ⟨rfl, written executable⟩
              | some entry =>
                  cases entry with
                  | directory => exact ⟨rfl, written executable⟩
                  | file old mode => exact ⟨rfl, written mode⟩

theorem ensureDirectory_open (agree : AgreeAt cwd base p s t) {place : Location}
    (leads : s.target path = t.target path)
    (goal : ∀ parent name slash, s.target path = .ok (.named parent name slash) →
      parent ++ [name] = place)
    (isOpen : s.Open place) (isOpen' : t.Open place) (above : ¬ p <+: place) :
    ((ensureDirectory path).run s).1 = ((ensureDirectory path).run t).1 ∧
      AgreeAt cwd base p ((ensureDirectory path).run s).2 ((ensureDirectory path).run t).2 := by
  cases found : s.target path with
  | error reason =>
      rw [ensureDirectory_of_error found, ensureDirectory_of_error (leads ▸ found)]
      exact ⟨rfl, agree⟩
  | ok target =>
      have found' := found
      rw [leads] at found'
      cases target with
      | self self dots =>
          rw [ensureDirectory_of_directory (Store.find_of_self found),
            ensureDirectory_of_directory (Store.find_of_self found')]
          exact ⟨rfl, agree⟩
      | named parent name slash =>
          have here := goal parent name slash found
          subst here
          have fits : s.Fits _ .directory := Store.fits_of_named found (Or.inl rfl)
          have fits' : t.Fits _ .directory := Store.fits_of_named found' (Or.inl rfl)
          rcases isOpen with free | there
          · rw [ensureDirectory_of_free found free]
            rcases isOpen' with free' | there'
            · rw [ensureDirectory_of_free found' free']
              exact ⟨rfl, agree.insert fits fits' (Or.inr ⟨above, rfl⟩)⟩
            · rw [ensureDirectory_of_directory (Store.find_of_directory found' there')]
              exact ⟨rfl, agree.insert_left fits there' above⟩
          · rw [ensureDirectory_of_directory (Store.find_of_directory found there)]
            rcases isOpen' with free' | there'
            · rw [ensureDirectory_of_free found' free']
              exact ⟨rfl, (agree.symm.insert_left fits' there above).symm⟩
            · rw [ensureDirectory_of_directory (Store.find_of_directory found' there')]
              exact ⟨rfl, agree⟩

/-- A directory is made below one that is there, on the way to the place where the trees agree. -/
theorem ensureDirectory_next (agree : AgreeAt cwd base p s t) {m : Normal} (usable : m.IsUsable)
    (directory : s.get? (m.place cwd) = some .directory)
    (directory' : t.get? (m.place cwd) = some .directory) {last : String}
    (valid : ∀ name ∈ [last], IsName name)
    (upto : m.place cwd ++ [last] <+: p ∨ m.place cwd ++ [last] <+: base) :
    ((ensureDirectory (m.under [last] valid).text).run s).1 =
        ((ensureDirectory (m.under [last] valid).text).run t).1 ∧
      AgreeAt cwd base p ((ensureDirectory (m.under [last] valid).text).run s).2
        ((ensureDirectory (m.under [last] valid).text).run t).2 := by
  have leads : s.target (m.under [last] valid).text = t.target (m.under [last] valid).text :=
    agree.target_under usable directory directory' (show ∀ name ∈ [] ++ [last], IsName name from valid)
      rfl
  by_cases same : Store.Alike s t (m.place cwd ++ [last])
  · refine ensureDirectory_sameAt agree ⟨leads, ?_⟩
    intro parent name slash found
    rwa [agree.left.named_under valid found]
  · obtain ⟨isOpen, isOpen'⟩ := (agree.above _ upto).resolve_left same
    exact ensureDirectory_open agree leads (fun _ _ _ => agree.left.named_under valid) isOpen isOpen'
      fun down => same (agree.below _ down)

/-- A path that only leads up finds a directory in both trees, or cannot be used. -/
theorem ensureDirectory_level_respects {n : Normal} (level : n.names = []) :
    Respects (AgreeAt cwd base p) (ensureDirectory n.text) := by
  intro s t agree
  cases started : s.start n.text with
  | error reason =>
      rw [ensureDirectory_of_error (Store.target_of_start_error started),
        ensureDirectory_of_error (Store.target_of_start_error (agree.start _ ▸ started))]
      exact ⟨rfl, agree⟩
  | ok start =>
      obtain ⟨noNul, -, size⟩ := (Store.start_eq_ok.mp started).1
      have usable : n.IsUsable := ⟨noNul, size, by simp [level]⟩
      rw [ensureDirectory_of_directory (Store.find_level level usable),
        ensureDirectory_of_directory (Store.find_level level usable)]
      exact ⟨rfl, agree⟩

theorem makeDirectories_under (m : Normal) {last : String} (valid : ∀ name ∈ [last], IsName name) :
    makeDirectories (m.under [last] valid).text =
      if m.elements = [] then ensureDirectory (m.under [last] valid).text
      else (makeDirectories m.text >>= fun _ => ensureDirectory (m.under [last] valid).text) := by
  have above : Path.lineage (m.under [last] valid).text =
      if m.elements = [] then [] else Path.lineage m.text ++ [m.text] := by
    rw [Normal.text, Normal.elements_under]
    exact Path.lineage_concat m.isElement (Or.inr (valid last List.mem_cons_self))
  rw [makeDirectories, above]
  split
  · rfl
  · have walk : (Path.lineage m.text ++ [m.text]).forM ensureDirectory =
        ((Path.lineage m.text).forM ensureDirectory >>= fun _ => [m.text].forM ensureDirectory) :=
      List.forM_append
    have last : [m.text].forM ensureDirectory = ensureDirectory m.text := by
      exact bind_pure (ensureDirectory m.text)
    rw [walk, last]
    rfl

theorem makeDirectories_level_respects {n : Normal} (level : n.names = []) :
    Respects (AgreeAt cwd base p) (makeDirectories n.text) := by
  apply Respects.bind
  · apply Respects.forM
    intro above member
    obtain ⟨m, rfl, -, shape⟩ := Normal.mem_lineage member
    apply ensureDirectory_level_respects
    rcases shape with flat | ⟨-, below⟩
    · exact flat
    · rw [level] at below
      exact List.prefix_nil.mp below
  · exact fun _ => ensureDirectory_level_respects level

theorem directory_of_empty (here : s.get? cwd = some .directory) {m : Normal} (empty : m.elements = []) :
    m.IsUsable ∧ s.get? (m.place cwd) = some .directory := by
  have level : m.names = [] := (List.append_eq_nil_iff.mp empty).2
  have text : '\x00' ∉ m.text.toList ∧ m.text.utf8ByteSize < pathLimit := by
    rw [Normal.text, empty]
    cases m.rooted with
    | true => decide
    | false => decide
  refine ⟨⟨text.1, text.2, by simp [level]⟩, ?_⟩
  rw [Normal.place, level, List.append_nil]
  exact Store.directory_base here

/-- Making directories on the way to the place or to the base comes to the same in both trees. -/
theorem makeDirectories_respects (n : Normal)
    (upto : n.place cwd <+: p ∨ n.place cwd <+: base) :
    Respects (AgreeAt cwd base p) (makeDirectories n.text) := by
  induction n using Normal.inductionOn with
  | level n level => exact makeDirectories_level_respects level
  | down m last valid ih =>
      rw [Normal.place_under] at upto
      have before := ih (upto.imp (List.prefix_append _ _).trans (List.prefix_append _ _).trans)
      rw [makeDirectories_under]
      split
      · rename_i empty
        intro s t agree
        obtain ⟨usable, directory⟩ := directory_of_empty agree.leftHere empty
        obtain ⟨-, directory'⟩ := directory_of_empty agree.rightHere empty
        exact ensureDirectory_next agree usable directory directory' valid upto
      · apply before.bind_of_ok
        intro s t _ s' t' agree ran ran' agree'
        obtain ⟨usable, directory⟩ := directory_of_makeDirectories agree.left ran
        obtain ⟨-, directory'⟩ := directory_of_makeDirectories agree.right ran'
        rw [agree'.left.sees_eq (Store.directory_base agree'.leftHere)] at directory
        rw [agree'.right.sees_eq (Store.directory_base agree'.rightHere)] at directory'
        exact ensureDirectory_next agree' usable directory directory' valid upto

/-- Directories that cannot be made are not made: at most some on the way are. -/
theorem agreeAt_of_makeDirectories_error (tree : s.TreeAt cwd) (here : s.get? cwd = some .directory)
    {n : Normal} {fault : FileFault}
    (failed : (makeDirectories n.text).run s = (.error fault, t)) :
    AgreeAt cwd base (n.place cwd) s t := by
  cases n using Normal.inductionOn with
  | level n level =>
      have changes : Sustains (Store.Changes cwd (fun _ => False) (fun _ => False))
          (makeDirectories n.text) := makeDirectories_level level
      exact .of_made tree here (changes.of_run failed) fun _ _ => not_false
  | down m last valid _ =>
      have changes : Sustains (Store.Changes cwd (· <+: m.place cwd) (fun _ => False))
          (makeDirectories m.text) := makeDirectories_text_changes fun _ up => Or.inl up
      have unmade : ∀ l, m.place cwd ++ [last] <+: l → ¬ l <+: m.place cwd := by
        intro l down up
        have lengths := (down.trans up).length_le
        rw [List.length_append, List.length_singleton] at lengths
        omega
      rw [Normal.place_under]
      rw [makeDirectories_under] at failed
      split at failed
      · rw [eq_of_ensureDirectory_error failed]
        exact .refl tree here _
      · rcases Attempt.run_bind_eq_error.mp failed with before | ⟨_, s', made, failed'⟩
        · exact .of_made tree here (changes.of_run before) unmade
        · rw [eq_of_ensureDirectory_error failed']
          exact .of_made tree here (changes.of_run made) unmade

section Inside

variable {d : Normal} {more : List String} {valid : ∀ name ∈ more, IsName name}

/-- The trees agree at the place of a path, and a directory is there that the path finds. -/
structure Inside (cwd base : Location) (d : Normal) (s t : Store) : Prop where
  agree : AgreeAt cwd base (d.place cwd) s t
  usable : d.IsUsable
  directory : s.get? (d.place cwd) = some .directory

theorem Inside.of_agree {s' t' : Store} (inside : Inside cwd base d s t)
    (agree : AgreeAt cwd base (d.place cwd) s' t')
    (directory : s'.get? (d.place cwd) = some .directory) : Inside cwd base d s' t' :=
  ⟨agree, inside.usable, directory⟩

theorem ensureDirectory_inside (filled : more ≠ []) :
    Respects (Inside cwd base d) (ensureDirectory (d.under more valid).text) := by
  intro s t inside
  obtain ⟨result, agree⟩ := ensureDirectory_sameAt inside.agree
    (inside.agree.sameAt inside.usable inside.directory valid filled)
  refine ⟨result, inside.of_agree agree ?_⟩
  have changes : Sustains (Store.Changes cwd (fun _ => True) (fun _ => False))
      (ensureDirectory (d.under more valid).text) := ensureDirectory_changes (Or.inl trivial)
  exact (changes s).kept inside.agree.left inside.directory not_false

theorem makeDirectories_inside :
    Respects (Inside cwd base d) (makeDirectories (d.under more valid).text) := by
  induction more using List.reverseRecOn with
  | nil =>
      rw [Normal.under_nil]
      intro s t inside
      obtain ⟨result, agree⟩ :=
        makeDirectories_respects d (Or.inl List.prefix_rfl) s t inside.agree
      refine ⟨result, inside.of_agree agree ?_⟩
      exact (makeDirectories_grows s).kept inside.agree.left inside.directory
  | append_singleton init last ih =>
      have deepest : Respects (Inside cwd base d)
          (ensureDirectory (d.under (init ++ [last]) valid).text) :=
        ensureDirectory_inside (List.append_ne_nil_of_right_ne_nil _ (List.cons_ne_nil _ _))
      rw [Normal.under_append] at deepest ⊢
      rw [makeDirectories_under]
      split
      · exact deepest
      · exact ih.bind fun _ => deepest

theorem writeFileAs_inside (filled : more ≠ []) (executable : Bool) (contents : Bytes) :
    Respects (Inside cwd base d) (writeFileAs executable (d.under more valid).text contents) := by
  intro s t inside
  obtain ⟨result, agree⟩ := writeFileAs_sameAt inside.agree
    (inside.agree.sameAt inside.usable inside.directory valid filled) executable contents
  refine ⟨result, inside.of_agree agree ?_⟩
  exact (writeFileAs_keepsDirectories executable contents s inside.agree.left).2 _ inside.directory

end Inside

end FileAction

end DawnC
