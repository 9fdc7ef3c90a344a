import DawnC.Proofs.Store.Actions

set_option autoImplicit false

namespace DawnC

namespace Store

variable {cwd : Location} {makes touches : Location → Prop} {s t : Store}

/-- Where the tree was not touched, nothing changed but for directories that were made. -/
def Changes (cwd : Location) (makes touches : Location → Prop) (s t : Store) : Prop :=
  s.TreeAt cwd → t.TreeAt cwd ∧ ∀ place, ¬ touches place → t.rule place = s.rule place ∧
    (t.get? place = s.get? place ∨ makes place ∧ s.IsFree place ∧ t.get? place = some .directory)

instance : IsPreorder Store (Changes cwd makes touches) where
  refl _ tree := ⟨tree, fun _ _ => ⟨rfl, Or.inl rfl⟩⟩
  trans s t u first second := by
    intro tree
    obtain ⟨tree', outside⟩ := first tree
    obtain ⟨tree'', outside'⟩ := second tree'
    refine ⟨tree'', ?_⟩
    intro place untouched
    obtain ⟨rule, before⟩ := outside place untouched
    obtain ⟨rule', after⟩ := outside' place untouched
    refine ⟨rule'.trans rule, ?_⟩
    rcases after with same' | ⟨making, free, made⟩
    · rw [same']
      exact before
    · rcases before with same | ⟨-, -, there⟩
      · rw [IsFree, same, rule] at free
        exact Or.inr ⟨making, free, made⟩
      · rw [free.1] at there
        cases there

namespace Changes

theorem mono {makes' touches' : Location → Prop} (changes : Changes cwd makes touches s t)
    (more : ∀ place, makes place → makes' place) (wider : ∀ place, touches place → touches' place) :
    Changes cwd makes' touches' s t := by
  intro tree
  obtain ⟨tree', outside⟩ := changes tree
  refine ⟨tree', ?_⟩
  intro place untouched
  obtain ⟨rule, same | ⟨making, rest⟩⟩ := outside place fun touched => untouched (wider place touched)
  · exact ⟨rule, Or.inl same⟩
  · exact ⟨rule, Or.inr ⟨more place making, rest⟩⟩

/-- What is there stays there, unless its place is touched. -/
theorem kept (changes : Changes cwd makes touches s t) (tree : s.TreeAt cwd) {place : Location}
    {entry : Entry} (found : s.get? place = some entry) (untouched : ¬ touches place) :
    t.get? place = some entry := by
  rcases ((changes tree).2 place untouched).2 with same | ⟨-, free, -⟩
  · rw [same, found]
  · rw [free.1] at found
    cases found

theorem insert_directory {path : String} {parent : Location} {name : String} {slash : Bool}
    (leads : s.target path = .ok (.named parent name slash)) (free : s.IsFree (parent ++ [name]))
    (made : makes (Path.place cwd path) ∨ touches (Path.place cwd path)) :
    Changes cwd makes touches s (s.insert (parent ++ [name]) .directory) := by
  intro tree
  refine ⟨tree.insert, ?_⟩
  intro place untouched
  refine ⟨rule_congr rules_insert place, ?_⟩
  rw [get?_insert (fits_of_named leads (Or.inl rfl))]
  split
  · rename_i here
    rw [← tree.here, target_named leads, ← here] at made
    exact Or.inr ⟨made.resolve_right untouched, here ▸ free, rfl⟩
  · exact Or.inl rfl

theorem insert_file {path : String} {parent : Location} {name : String} {slash : Bool}
    (leads : s.target path = .ok (.named parent name slash))
    (noDirectory : s.get? (parent ++ [name]) ≠ some .directory)
    (touched : touches (Path.place cwd path)) (contents : Bytes) (executable : Bool) :
    Changes cwd makes touches s (s.insert (parent ++ [name]) (.file contents executable)) := by
  intro tree
  refine ⟨tree.insert, ?_⟩
  intro place untouched
  refine ⟨rule_congr rules_insert place, ?_⟩
  rw [get?_insert (fits_of_named leads (Or.inr noDirectory)), if_neg]
  · exact Or.inl rfl
  · rintro rfl
    rw [← tree.here, target_named leads] at touched
    exact untouched touched

theorem erase_leaf {place : Location} (down : place ≠ [])
    (leaf : ∀ name, s.get? (place ++ [name]) = none) (touched : touches place) :
    Changes cwd makes touches s (s.erase place) := by
  intro tree
  refine ⟨tree.erase, ?_⟩
  intro other untouched
  refine ⟨rfl, ?_⟩
  rw [get?_erase_leaf down leaf, if_neg]
  · exact Or.inl rfl
  · rintro rfl
    exact untouched touched

end Changes

/-- Nothing that was there is gone or changed. -/
def Grows (cwd : Location) (s t : Store) : Prop :=
  s.TreeAt cwd → t.TreeAt cwd ∧ ∀ place entry, s.get? place = some entry →
    t.get? place = some entry ∧ t.rule place = s.rule place

instance : IsPreorder Store (Grows cwd) where
  refl _ tree := ⟨tree, fun _ _ found => ⟨found, rfl⟩⟩
  trans s t u first second := by
    intro tree
    obtain ⟨tree', kept⟩ := first tree
    obtain ⟨tree'', kept'⟩ := second tree'
    refine ⟨tree'', ?_⟩
    intro place entry found
    obtain ⟨found', rule⟩ := kept place entry found
    obtain ⟨found'', rule'⟩ := kept' place entry found'
    exact ⟨found'', rule'.trans rule⟩

def KeepsDirectories (cwd : Location) (s t : Store) : Prop :=
  s.TreeAt cwd → t.TreeAt cwd ∧
    ∀ place, s.get? place = some .directory → t.get? place = some .directory

instance : IsPreorder Store (KeepsDirectories cwd) where
  refl _ tree := ⟨tree, fun _ there => there⟩
  trans s t u first second := by
    intro tree
    obtain ⟨tree', kept⟩ := first tree
    obtain ⟨tree'', kept'⟩ := second tree'
    exact ⟨tree'', fun place there => kept' place (kept place there)⟩

theorem KeepsDirectories.sees (keeps : KeepsDirectories cwd s t) (tree : s.TreeAt cwd) {n : Path.Normal}
    (found : s.sees n = some .directory) : t.sees n = some .directory := by
  obtain ⟨tree', kept⟩ := keeps tree
  by_cases level : n.names = []
  · exact sees_level level
  · rw [tree.sees_down level] at found
    rw [tree'.sees_down level, kept _ found]

theorem Grows.kept (grows : Grows cwd s t) (tree : s.TreeAt cwd) {place : Location} {entry : Entry}
    (found : s.get? place = some entry) : t.get? place = some entry :=
  ((grows tree).2 place entry found).1

theorem Grows.keepsDirectories (grows : Grows cwd s t) : KeepsDirectories cwd s t :=
  fun tree => ⟨(grows tree).1, fun _ there => grows.kept tree there⟩

theorem Changes.grows (changes : Changes cwd makes touches s t)
    (fresh : s.TreeAt cwd → ∀ place, touches place → s.get? place = none) : Grows cwd s t := by
  intro tree
  refine ⟨(changes tree).1, ?_⟩
  intro place entry found
  have untouched : ¬ touches place := by
    intro touched
    rw [fresh tree place touched] at found
    cases found
  exact ⟨changes.kept tree found untouched, ((changes tree).2 place untouched).1⟩

theorem Grows.descend (grows : Grows cwd s t) (tree : s.TreeAt cwd) {list : List String}
    {place other : Location} (found : s.descend place list = .ok other) :
    t.descend place list = .ok other := by
  induction list generalizing place with
  | nil => exact found
  | cons name rest ih =>
      rw [Store.descend] at found ⊢
      split at found
      · rename_i here
        rw [if_pos here]
        exact ih found
      · rename_i notHere
        rw [if_neg notHere]
        split at found
        · rename_i up
          rw [if_pos up]
          exact ih found
        · rename_i notUp
          rw [if_neg notUp]
          split at found
          · cases found
          · rename_i directory
            rw [if_neg (not_not_intro (grows.kept tree (not_not.mp directory)))]
            split at found
            · cases found
            · rename_i short
              rw [if_neg short]
              split at found
              · rename_i inside
                rw [grows.kept tree inside]
                exact ih found
              · cases found
              · cases found

theorem Grows.target (grows : Grows cwd s t) (tree : s.TreeAt cwd) {path : String} {goal : Target}
    (leads : s.target path = .ok goal) : t.target path = .ok goal := by
  rw [Store.target] at leads ⊢
  cases started : s.start path with
  | error reason =>
      rw [started] at leads
      cases leads
  | ok place =>
      have started' : t.start path = .ok place := by
        rw [start_eq_ok, tree.here] at started
        rw [start_eq_ok, (grows tree).1.here]
        exact started
      rw [started] at leads
      rw [started']
      dsimp only [bind, Except.bind] at leads ⊢
      cases ends : (Path.names path).getLast? with
      | none =>
          rw [ends] at leads
          exact leads
      | some last =>
          rw [ends] at leads
          dsimp only at leads ⊢
          cases descended : s.descend place (Path.names path).dropLast with
          | error reason =>
              rw [descended] at leads
              cases leads
          | ok parent =>
              rw [descended] at leads
              rw [grows.descend tree descended]
              dsimp only at leads ⊢
              split at leads
              · rename_i here
                rw [if_pos here]
                exact leads
              · rename_i notHere
                rw [if_neg notHere]
                split at leads
                · rename_i up
                  rw [if_pos up]
                  exact leads
                · rename_i notUp
                  rw [if_neg notUp]
                  split at leads
                  · cases leads
                  · rename_i directory
                    rw [if_neg (not_not_intro (grows.kept tree (not_not.mp directory)))]
                    exact leads

theorem Grows.locate (grows : Grows cwd s t) (tree : s.TreeAt cwd) {path : String} {place : Location}
    {entry : Entry} (found : s.locate path = .ok (place, entry)) : t.locate path = .ok (place, entry) := by
  rw [Store.locate] at found ⊢
  cases leads : s.target path with
  | error reason =>
      rw [leads] at found
      cases found
  | ok goal =>
      rw [leads] at found
      rw [grows.target tree leads]
      dsimp only [bind, Except.bind] at found ⊢
      cases goal with
      | self place dots => exact found
      | named parent name slash =>
          dsimp only at found ⊢
          cases there : s.get? (parent ++ [name]) with
          | none =>
              rw [there] at found
              cases found
          | some old =>
              rw [there] at found
              rw [grows.kept tree there]
              exact found

theorem Grows.find (grows : Grows cwd s t) (tree : s.TreeAt cwd) {path : String} {entry : Entry}
    (found : s.find path = .ok entry) : t.find path = .ok entry := by
  obtain ⟨place, located⟩ := exists_locate found
  rw [Store.find, grows.locate tree located]
  rfl

theorem Grows.readFile (grows : Grows cwd s t) (tree : s.TreeAt cwd) {path : String} {contents : Bytes}
    {executable : Bool} (found : s.find path = .ok (.file contents executable)) :
    t.readFile path = s.readFile path := by
  obtain ⟨place, located⟩ := exists_locate found
  obtain ⟨-, there⟩ := tree.file_of_locate located
  rw [Store.readFile, Store.readFile, located, grows.locate tree located]
  dsimp only
  rw [((grows tree).2 _ _ there).2]

end Store

namespace FileAction

open Store (Changes)
open Attempt (Sustains)

variable {cwd : Location} {makes touches : Location → Prop} {path : String}

theorem ensureDirectory_changes
    (made : makes (Path.place cwd path) ∨ touches (Path.place cwd path)) :
    Sustains (Changes cwd makes touches) (ensureDirectory path) := by
  intro s
  rcases ensureDirectory_cases s path with
    ⟨fault, failed⟩ | ⟨-, ran⟩ | ⟨parent, name, slash, leads, free, ran⟩
  · rw [failed]
    exact refl_of _ s
  · rw [ran]
    exact refl_of _ s
  · rw [ran]
    exact .insert_directory leads free made

theorem makeDirectories_sustains {R : Store → Store → Prop} [IsPreorder Store R]
    (each : ∀ above ∈ Path.lineage path ++ [path], Sustains R (ensureDirectory above)) :
    Sustains R (makeDirectories path) := by
  apply Sustains.bind
  · exact .forM fun above member => each above (List.mem_append_left _ member)
  · intro _
    exact each path (by simp)

theorem makeDirectories_changes (anywhere : ∀ place, makes place) :
    Sustains (Changes cwd makes touches) (makeDirectories path) :=
  makeDirectories_sustains fun _ _ => ensureDirectory_changes (Or.inl (anywhere _))

theorem makeDirectories_grows : Sustains (Store.Grows cwd) (makeDirectories path) := by
  have changes : Sustains (Changes cwd (fun _ => True) (fun _ => False)) (makeDirectories path) :=
    makeDirectories_changes fun _ => trivial
  exact fun s => (changes s).grows fun _ _ touched => touched.elim

theorem writeFileAs_changes (touched : touches (Path.place cwd path)) (executable : Bool)
    (contents : Bytes) : Sustains (Changes cwd makes touches) (writeFileAs executable path contents) := by
  intro s
  rcases writeFileAs_cases s executable path contents with
    ⟨fault, failed⟩ | ⟨parent, name, mode, leads, noDirectory, -, -, ran⟩
  · rw [failed]
    exact refl_of _ s
  · rw [ran]
    exact .insert_file leads noDirectory touched contents mode

theorem writeFileAs_keepsDirectories (executable : Bool) (contents : Bytes) :
    Sustains (Store.KeepsDirectories cwd) (writeFileAs executable path contents) := by
  intro s tree
  rcases writeFileAs_cases s executable path contents with
    ⟨fault, failed⟩ | ⟨parent, name, mode, leads, noDirectory, -, -, ran⟩
  · rw [failed]
    exact ⟨tree, fun _ there => there⟩
  · rw [ran]
    refine ⟨tree.insert, ?_⟩
    intro place there
    rw [Store.get?_insert (Store.fits_of_named leads (Or.inr noDirectory)), if_neg]
    · exact there
    · rintro rfl
      exact noDirectory there

/-- What can be removed has nothing below it. -/
theorem Removable.leaf {s : Store} {place : Location} (removable : Removable s path place) (name : String) :
    s.get? (place ++ [name]) = none := by
  obtain ⟨-, -, -, -, -, -, ⟨-, contents, executable, found⟩ | ⟨-, empty⟩⟩ := removable
  · exact Store.leaf_of_file found name
  · exact Store.get?_of_children_isEmpty empty name

theorem Removable.ne_nil {s : Store} {place : Location} (removable : Removable s path place) : place ≠ [] := by
  obtain ⟨parent, name, -, -, rfl, -⟩ := removable
  simp

theorem Removable.changes {s : Store} {place : Location} (removable : Removable s path place)
    (touched : touches (Path.place cwd path)) : Changes cwd makes touches s (s.erase place) := by
  intro tree
  refine Changes.erase_leaf removable.ne_nil removable.leaf ?_ tree
  obtain ⟨parent, name, slash, leads, rfl, -⟩ := removable
  rwa [← tree.here, Store.target_named leads] at touched

theorem remove_changes (touched : touches (Path.place cwd path)) :
    Sustains (Changes cwd makes touches) (remove path) := by
  intro s
  rcases remove_cases s path with ⟨fault, failed⟩ | ⟨place, removable, ran⟩
  · rw [failed]
    exact refl_of _ s
  · rw [ran]
    exact removable.changes touched

theorem removeIfExists_changes (touched : touches (Path.place cwd path)) :
    Sustains (Changes cwd makes touches) (removeIfExists path) := by
  intro s
  rcases removeIfExists_cases s path with ⟨result, same⟩ | ⟨place, removable, ran⟩
  · rw [same]
    exact refl_of _ s
  · rw [ran]
    exact removable.changes touched

end FileAction

theorem Path.move_isPrefix (place : List String) (name : String) :
    Path.move place name <+: place ++ [name] := by
  rw [Path.move]
  split
  · exact List.prefix_append _ _
  · split
    · exact (List.dropLast_prefix _).trans (List.prefix_append _ _)
    · exact List.prefix_rfl

/-- The last name of a path in its directory lies at the place of the path, or below it. -/
theorem Path.place_splitLast (cwd : List String) (path : String) :
    Path.place cwd path <+:
      Path.place cwd (FileAction.splitLast path).1 ++ [(FileAction.splitLast path).2] := by
  have last (start : List String) {first name : String} (plain : '/' ∉ name.toList) :
      Path.follow start (Path.elements first ++ Path.elements name) <+:
        Path.follow start (Path.elements first) ++ [name] := by
    rw [Path.elements_self plain, Path.follow_append]
    exact Path.move_isPrefix _ name
  rw [FileAction.splitLast]
  split
  · rename_i none
    have plain : '/' ∉ path.toList := by
      intro member
      have found := Text.cutLast_isSome member
      rw [none] at found
      cases found
    have relative : Path.isAbsolute path = false := by
      rw [Path.isAbsolute, decide_eq_false_iff_not]
      exact fun slash => plain (List.mem_of_mem_head? slash)
    have here : Path.place cwd "." = cwd := rfl
    rw [here, Path.place, relative, if_neg (by decide), Path.elements_self plain]
    exact Path.move_isPrefix cwd path
  · rename_i name cutting
    have plain : '/' ∉ (String.ofList name).toList := by
      rw [String.toList_ofList]
      exact Text.not_mem_of_cutLast cutting
    have shape : path = "" ++ "/" ++ String.ofList name := by
      apply String.toList_inj.mp
      rw [Text.cutLast_eq_some cutting]
      simp
    have root : Path.place cwd "/" = [] := rfl
    have absolute : Path.isAbsolute path = true := by
      rw [shape, Path.isAbsolute_append (by decide)]
      decide
    rw [root, Path.place, absolute, if_pos rfl, shape, Path.elements_append]
    exact last [] plain
  · rename_i before name filled cutting
    have plain : '/' ∉ (String.ofList name).toList := by
      rw [String.toList_ofList]
      exact Text.not_mem_of_cutLast cutting
    have shape : path = String.ofList before ++ "/" ++ String.ofList name := by
      apply String.toList_inj.mp
      rw [Text.cutLast_eq_some cutting]
      simp
    have nonempty : String.ofList before ≠ "" := by
      intro empty
      apply filled
      simpa using empty
    rw [shape, Path.place, String.append_assoc, Path.isAbsolute_append nonempty,
      ← String.append_assoc, Path.elements_append]
    exact last _ plain

namespace FileAction

open Store (Changes)
open Attempt (Sustains)

variable {cwd : Location} {makes touches : Location → Prop} {path : String}

theorem removeTree_changes (touched : ∀ place, Path.place cwd path <+: place → touches place) :
    Sustains (Changes cwd makes touches) (removeTree path) := by
  intro s
  rcases removeTree_cases s path with ⟨result, same⟩ | ⟨place, removable, ran⟩ |
    ⟨place, result, located, ran⟩
  · rw [same]
    exact refl_of _ s
  · rw [ran]
    exact removable.changes (touched _ List.prefix_rfl)
  · rw [ran]
    intro tree
    obtain rfl := tree.place_of_locate located
    refine ⟨tree.eraseTree, ?_⟩
    intro other untouched
    refine ⟨rfl, ?_⟩
    rw [Store.get?_eraseTree (by simp), if_neg]
    · exact Or.inl rfl
    · intro below
      exact untouched (touched other ((Path.place_splitLast cwd path).trans below.1))

/-- The store after a file was moved from its place to another, which may be the same. -/
theorem get?_renamed {s : Store} {destination : String} {parent parent' : Location}
    {name name' : String} {slash : Bool} {contents : Bytes} {executable : Bool}
    (leads : s.target destination = .ok (.named parent' name' slash))
    (found : s.get? (parent ++ [name]) = some (.file contents executable))
    (free : s.get? (parent' ++ [name']) ≠ some .directory) (other : Location) :
    ((s.erase (parent ++ [name])).insert (parent' ++ [name']) (.file contents executable)).get? other =
      if other = parent' ++ [name'] then some (.file contents executable)
      else if other = parent ++ [name] then none else s.get? other := by
  have apart : parent' ≠ parent ++ [name] := by
    rintro rfl
    have directory := Store.directory_of_named leads
    rw [found] at directory
    cases directory
  have erased := Store.get?_erase_leaf (by simp) (Store.leaf_of_file found)
  have fits : s.Fits (parent' ++ [name']) (.file contents executable) :=
    Store.fits_of_named leads (Or.inr free)
  have fits' : (s.erase (parent ++ [name])).Fits (parent' ++ [name']) (.file contents executable) := by
    refine ⟨fits.1, fits.2.1, ?_, Or.inr ?_⟩
    · rw [List.dropLast_concat, erased, if_neg apart]
      exact Store.directory_of_named leads
    · rw [erased]
      split
      · simp
      · exact free
  rw [Store.get?_insert fits', erased]

theorem rename_changes {source destination : String} (origin : touches (Path.place cwd source))
    (goal : touches (Path.place cwd destination)) :
    Sustains (Changes cwd makes touches) (rename source destination) := by
  intro s
  rcases rename_cases s source destination with ⟨fault, failed⟩ |
    ⟨parent, name, slash, parent', name', contents, executable, leads, leads', found, free, ran⟩
  · rw [failed]
    exact refl_of _ s
  · rw [ran]
    intro tree
    refine ⟨tree.erase.insert, ?_⟩
    intro place untouched
    refine ⟨Store.rule_congr Store.rules_insert place, ?_⟩
    rw [← tree.here, Store.target_named leads] at origin
    rw [← tree.here, Store.target_named leads'] at goal
    rw [get?_renamed leads' found free, if_neg, if_neg]
    · exact Or.inl rfl
    · rintro rfl
      exact untouched origin
    · rintro rfl
      exact untouched goal

theorem moveFile_changes {source destination : String} (origin : touches (Path.place cwd source))
    (goal : touches (Path.place cwd destination)) :
    Sustains (Changes cwd makes touches) (moveFile source destination) := by
  apply Sustains.tryCatch (rename_changes origin goal)
  intro _
  apply Sustains.bind
  · intro s
    rw [readFile, Attempt.run_bind_ok (Attempt.run_get s)]
    cases s.readFile source with
    | error fault => exact refl_of _ s
    | ok contents => exact refl_of _ s
  · intro contents
    exact .bind (writeFileAs_changes goal true contents) fun _ => remove_changes origin

end FileAction

end DawnC
