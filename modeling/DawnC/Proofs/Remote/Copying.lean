import DawnC.Proofs.Remote.Fetch
import DawnC.Proofs.Store.Making

set_option autoImplicit false

namespace DawnC

namespace Path

theorem extension_under (n : Normal) {init : List String} {last : String}
    (valid : ∀ name ∈ init ++ [last], IsName name) :
    extension (n.under (init ++ [last]) valid).text = extension last := by
  have plain : ∀ c ∈ last.toList.reverse, decide (c ≠ '/') = true := by
    intro c member
    rw [decide_eq_true_eq]
    rintro rfl
    exact (valid last (by simp)).2.2.2 (List.mem_reverse.mp member)
  have ends (front : String) : extension (front ++ "/" ++ last) = extension last := by
    have shape : (front ++ "/" ++ last).toList.reverse =
        last.toList.reverse ++ '/' :: front.toList.reverse := by
      simp
    have stops : ('/' :: front.toList.reverse).takeWhile (· ≠ '/') = [] :=
      List.takeWhile_cons_of_neg (by simp)
    rw [extension, extension, shape, List.takeWhile_append_of_pos plain, stops, List.append_nil,
      List.takeWhile_eq_self_iff.mpr plain]
  rw [Normal.text, Normal.elements_under, ← List.append_assoc, textOf_concat]
  split
  · split
    · exact ends ""
    · rfl
  · exact ends _

end Path

namespace Cache

open Attempt (Settles run_bind_ok run_bind_error)
open DawnC.Path (Normal IsName)

/-- What is at these names below a place, with no hidden directory on the way. -/
def Reached (s : Store) (root : Location) (names : List String) (entry : Entry) : Prop :=
  s.get? (root ++ names) = some entry ∧ ∀ name ∈ names.dropLast, isHidden name = false

/-- A source file at these names below a place, with no hidden directory on the way. -/
def IsSource (s : Store) (root : Location) (names : List String) (contents : Bytes) : Prop :=
  (∃ executable, Reached s root names (.file contents executable)) ∧
    ∃ name ∈ names.getLast?, Path.extension name = sourceExtension

/-- A source file can be read, and its copy can be named and made, with the directories that it lies in. -/
@[mk_iff]
structure Copyable (s : Store) (root goal : Location) (destination : String) (names : List String) : Prop where
  short : (Path.join (destination :: names)).utf8ByteSize < pathLimit
  readable : (s.rule (root ++ names)).unreadable = false
  writable : ∀ more, more <+: names → more ≠ [] → (s.rule (goal ++ more)).unwritable = false

/-- What is at these names can be stored: it can be looked up, a directory can be listed, and a source file
can be copied. -/
@[mk_iff]
structure Storable (s : Store) (root goal : Location) (source destination : String) (names : List String) :
    Prop where
  seen : ∀ entry, Reached s root names entry → (Path.join (source :: names)).utf8ByteSize < pathLimit
  listed : names = [] ∨ Reached s root names .directory → (s.rule (root ++ names)).unreadable = false
  copyable : ∀ contents, IsSource s root names contents → Copyable s root goal destination names

section Reached

variable {s t : Store} {root goal : Location} {names more : List String} {contents : Bytes}
  {source destination : String}

theorem IsSource.unique {contents' : Bytes} (first : IsSource s root names contents)
    (second : IsSource s root names contents') : contents = contents' := by
  obtain ⟨⟨_, there, -⟩, -⟩ := first
  obtain ⟨⟨_, there', -⟩, -⟩ := second
  rw [there] at there'
  cases there'
  rfl

theorem IsSource.filled (isSource : IsSource s root names contents) : names ≠ [] := by
  rintro rfl
  obtain ⟨-, _, impossible, -⟩ := isSource
  cases impossible

theorem IsSource.not_directory (isSource : IsSource s root names contents) :
    s.get? (root ++ names) ≠ some .directory := by
  obtain ⟨⟨_, there, -⟩, -⟩ := isSource
  simp [there]

theorem IsSource.directory_above (isSource : IsSource s root (names ++ more) contents)
    (below : more ≠ []) : s.get? (root ++ names) = some .directory := by
  obtain ⟨⟨_, there, -⟩, -⟩ := isSource
  rw [← List.append_assoc] at there
  exact Store.directory_above there below

/-- No source file lies in another. -/
theorem IsSource.not_inside {contents' : Bytes} (isSource : IsSource s root (names ++ more) contents)
    (below : more ≠ []) : ¬ IsSource s root names contents' :=
  fun outer => outer.not_directory (isSource.directory_above below)

theorem not_isSource_of_absent (absent : ∀ entry, ¬ Reached s root names entry) :
    ¬ IsSource s root names contents := by
  rintro ⟨⟨_, reached⟩, -⟩
  exact absent _ reached

theorem storable_of_absent (filled : names ≠ []) (absent : ∀ entry, ¬ Reached s root names entry) :
    Storable s root goal source destination names :=
  ⟨fun entry reached => absurd reached (absent entry), fun here => here.elim (absurd · filled) (absurd · (absent _)),
    fun _ isSource => absurd isSource (not_isSource_of_absent absent)⟩

/-- What is reached below these names is reached by a name that is there. -/
theorem Reached.next {r : List String} {entry : Entry} (reached : Reached s root r entry) (down : names <+: r) (further : r ≠ names) :
    ∃ name, names ++ [name] <+: r ∧ ∃ there, s.get? (root ++ (names ++ [name])) = some there := by
  obtain ⟨more, rfl⟩ := down
  obtain ⟨found, -⟩ := reached
  cases more with
  | nil => exact absurd (List.append_nil names) further
  | cons name rest =>
      refine ⟨name, ⟨rest, by simp⟩, ?_⟩
      rw [List.append_cons, ← List.append_assoc] at found
      by_cases level : rest = []
      · rw [level, List.append_nil] at found
        exact ⟨entry, found⟩
      · exact ⟨.directory, Store.directory_above found level⟩

/-- The walk goes no further than to these names. -/
def Ends (s : Store) (root : Location) (names : List String) : Prop :=
  ∀ more, more ≠ [] → ∀ entry, ¬ Reached s root (names ++ more) entry

theorem ends_of_not_directory (other : s.get? (root ++ names) ≠ some .directory) : Ends s root names := by
  rintro more below entry ⟨there, -⟩
  rw [← List.append_assoc] at there
  exact other (Store.directory_above there below)

theorem ends_of_hidden {init : List String} {name : String} (hidden : isHidden name = true) :
    Ends s root (init ++ [name]) := by
  rintro more below entry ⟨-, shown⟩
  have member : name ∈ (init ++ [name] ++ more).dropLast := by
    rw [List.dropLast_append_of_ne_nil below]
    simp
  rw [shown name member] at hidden
  cases hidden

theorem Ends.storable_iff (ends : Ends s root names) :
    (∀ r, names <+: r → Storable s root goal source destination r) ↔
      Storable s root goal source destination names := by
  constructor
  · exact fun all => all names List.prefix_rfl
  · rintro here r ⟨more, rfl⟩
    by_cases level : more = []
    · rwa [level, List.append_nil]
    · exact storable_of_absent (List.append_ne_nil_of_right_ne_nil _ level) (ends more level)

/-- The source files that a walk from these names copies. -/
def Handled (s : Store) (root : Location) (names r : List String) : Prop :=
  names <+: r ∧ ∃ contents, IsSource s root r contents

theorem Ends.handled_iff (ends : Ends s root names) {r : List String} :
    Handled s root names r ↔ r = names ∧ ∃ contents, IsSource s root names contents := by
  constructor
  · rintro ⟨⟨more, rfl⟩, contents, isSource⟩
    by_cases level : more = []
    · rw [level, List.append_nil] at isSource ⊢
      exact ⟨rfl, contents, isSource⟩
    · exact absurd isSource (not_isSource_of_absent (ends more level))
  · rintro ⟨rfl, isSource⟩
    exact ⟨List.prefix_rfl, isSource⟩

end Reached

/-- A tree with a directory to copy from and an empty one to copy to, apart from each other. -/
structure Ready (cwd : Location) (source : String) (m d : Normal) (s : Store) : Prop where
  tree : s.TreeAt cwd
  cleans : m.Cleans source
  found : s.find source = .ok .directory
  made : d.IsUsable ∧ s.get? (d.place cwd) = some .directory
  empty : ∀ names, names ≠ [] → s.get? (d.place cwd ++ names) = none
  apart : ¬ m.place cwd <+: d.place cwd ∧ ¬ d.place cwd <+: m.place cwd

/-- Below `d` there are copies of the source files at the names with `P`, and the directories they need.
Elsewhere nothing changed. -/
structure Copied (cwd : Location) (m d : Normal) (P : List String → Prop) (s t : Store) : Prop where
  tree : t.TreeAt cwd
  rule : ∀ place, t.rule place = s.rule place
  outside : ∀ place, ¬ d.place cwd <+: place → t.get? place = s.get? place
  sources : ∀ names, P names → (∃ contents, IsSource s (m.place cwd) names contents) ∧
    Copyable s (m.place cwd) (d.place cwd) d.text names
  files : ∀ names contents executable,
    t.get? (d.place cwd ++ names) = some (.file contents executable) ↔
      executable = false ∧ P names ∧ IsSource s (m.place cwd) names contents
  directories : ∀ names, t.get? (d.place cwd ++ names) = some .directory ↔
    names = [] ∨ ∃ more, more ≠ [] ∧ P (names ++ more)

variable {cwd : Location} {source : String} {m d : Normal} {s t : Store} {P : List String → Prop}

namespace Ready

theorem usable (ready : Ready cwd source m d s) : m.IsUsable := by
  have cleaned := ready.tree.find_clean ready.found
  rw [ready.cleans.clean] at cleaned
  exact (ready.tree.find_text.mp cleaned).1

theorem elsewhere (ready : Ready cwd source m d s) (names : List String) :
    ¬ d.place cwd <+: m.place cwd ++ names := by
  intro below
  rcases List.prefix_or_prefix_of_prefix below (List.prefix_append (m.place cwd) names) with onWay | under
  · exact ready.apart.2 onWay
  · exact ready.apart.1 under

theorem start (ready : Ready cwd source m d s) : Copied cwd m d (fun _ => False) s s := by
  refine ⟨ready.tree, fun _ => rfl, fun _ _ => rfl, fun _ impossible => impossible.elim, ?_, ?_⟩
  · intro names contents executable
    by_cases level : names = []
    · simp [level, ready.made.2]
    · simp [ready.empty names level]
  · intro names
    by_cases level : names = []
    · simp [level, ready.made.2]
    · simp [ready.empty names level, level]

end Ready

namespace Copied

theorem congr {P' : List String → Prop} (copied : Copied cwd m d P s t)
    (same : ∀ names, P names ↔ P' names) : Copied cwd m d P' s t := by
  have equal : P = P' := funext fun names => propext (same names)
  exact equal ▸ copied

theorem same (copied : Copied cwd m d P s t) (ready : Ready cwd source m d s) (names : List String) :
    t.get? (m.place cwd ++ names) = s.get? (m.place cwd ++ names) :=
  copied.outside _ (ready.elsewhere names)

theorem destination (copied : Copied cwd m d P s t) : t.get? (d.place cwd) = some .directory := by
  have here := (copied.directories []).mpr (Or.inl rfl)
  rwa [List.append_nil] at here

theorem way (copied : Copied cwd m d P s t) {place : Location} (onWay : place <+: d.place cwd) :
    t.get? place = some .directory := by
  by_cases here : place = d.place cwd
  · rw [here, copied.destination]
  · exact Store.directory_of_isPrefix copied.destination onWay here

theorem grows (copied : Copied cwd m d P s t) (ready : Ready cwd source m d s) :
    Store.Grows cwd s t := by
  intro _
  refine ⟨copied.tree, ?_⟩
  intro place entry found
  refine ⟨?_, copied.rule place⟩
  by_cases inside : d.place cwd <+: place
  · obtain ⟨names, rfl⟩ := inside
    by_cases level : names = []
    · rw [level, List.append_nil, ready.made.2] at found
      rw [level, List.append_nil, copied.destination, found]
    · rw [ready.empty names level] at found
      cases found
  · rw [copied.outside place inside, found]

/-- A path of the source finds what was there, unless it is too long. -/
theorem find_iff (copied : Copied cwd m d P s t) (ready : Ready cwd source m d s) {names : List String}
    {valid : ∀ name ∈ names, IsName name} (filled : names ≠ []) {entry : Entry} :
    t.find (m.under names valid).text = .ok entry ↔
      s.get? (m.place cwd ++ names) = some entry ∧
        (m.under names valid).text.utf8ByteSize < pathLimit := by
  rw [copied.tree.find_text, copied.tree.sees_down (List.append_ne_nil_of_right_ne_nil _ filled),
    Normal.place_under, copied.same ready, and_comm]
  refine and_congr_right fun there => ?_
  exact ready.usable.under_iff fun name member =>
    Store.usable_of_get? there name (List.mem_append_right _ member)

variable {init : List String} {last : String} {contents : Bytes}

/-- Nothing stands in the way of a copy: no copied file is where the source has a directory. -/
theorem free (copied : Copied cwd m d P s t) (isSource : IsSource s (m.place cwd) (init ++ [last]) contents)
    (copyable : Copyable s (m.place cwd) (d.place cwd) d.text (init ++ [last])) {place : Location}
    (way : place <+: d.place cwd ++ init) : t.Open place := by
  by_cases onWay : place <+: d.place cwd
  · exact Or.inr (copied.way onWay)
  · obtain ⟨names, rfl⟩ :=
      (List.prefix_or_prefix_of_prefix way (List.prefix_append _ _)).resolve_left onWay
    obtain ⟨rest, rfl⟩ := (List.prefix_append_right_inj _).mp way
    cases there : t.get? (d.place cwd ++ names) with
    | none =>
        refine Or.inl ⟨there, ?_⟩
        rw [copied.rule]
        refine copyable.writable names ⟨rest ++ [last], by simp⟩ ?_
        rintro rfl
        exact onWay (by simp)
    | some entry =>
        cases entry with
        | directory => exact Or.inr there
        | file contents' executable =>
            obtain ⟨-, -, isFile⟩ := (copied.files _ _ _).mp there
            rw [List.append_assoc] at isSource
            exact absurd isFile (isSource.not_inside (by simp))

/-- Where a source file is copied to, there is nothing but a copy of it. -/
theorem old_copy (copied : Copied cwd m d P s t) {names : List String}
    (isSource : IsSource s (m.place cwd) names contents) {entry : Entry}
    (there : t.get? (d.place cwd ++ names) = some entry) : ∃ old, entry = .file old false := by
  cases entry with
  | directory =>
      rcases (copied.directories names).mp there with level | ⟨more, below, holds⟩
      · exact absurd level isSource.filled
      · obtain ⟨⟨_, deeper⟩, -⟩ := copied.sources _ holds
        exact absurd isSource (deeper.not_inside below)
  | file old executable =>
      obtain ⟨rfl, -⟩ := (copied.files _ _ _).mp there
      exact ⟨old, rfl⟩

section Add

variable {t' : Store} (within : ∀ names, t'.get? (d.place cwd ++ names) =
  if names = init ++ [last] then some (.file contents false)
  else if names <+: init then some .directory else t.get? (d.place cwd ++ names))

include within

theorem files_add (copied : Copied cwd m d P s t)
    (isSource : IsSource s (m.place cwd) (init ++ [last]) contents) (names : List String)
    (contents' : Bytes) (executable : Bool) :
    t'.get? (d.place cwd ++ names) = some (.file contents' executable) ↔
      executable = false ∧ (P names ∨ names = init ++ [last]) ∧
        IsSource s (m.place cwd) names contents' := by
  rw [within]
  split
  · rename_i here
    subst here
    constructor
    · intro same
      cases same
      exact ⟨rfl, Or.inr rfl, isSource⟩
    · rintro ⟨rfl, -, isSource'⟩
      rw [isSource.unique isSource']
  · rename_i other
    split
    · rename_i above
      obtain ⟨rest, rfl⟩ := above
      constructor
      · intro impossible
        cases impossible
      · rintro ⟨-, -, isFile⟩
        rw [List.append_assoc] at isSource
        exact absurd isFile (isSource.not_inside (by simp))
    · rw [copied.files]
      simp [other]

theorem directories_add (copied : Copied cwd m d P s t)
    (isSource : IsSource s (m.place cwd) (init ++ [last]) contents) (names : List String) :
    t'.get? (d.place cwd ++ names) = some .directory ↔
      names = [] ∨ ∃ more, more ≠ [] ∧ (P (names ++ more) ∨ names ++ more = init ++ [last]) := by
  rw [within]
  split
  · rename_i here
    subst here
    constructor
    · intro impossible
      cases impossible
    · rintro (impossible | ⟨more, below, old | same⟩)
      · simp at impossible
      · obtain ⟨⟨_, deeper⟩, -⟩ := copied.sources _ old
        exact absurd isSource (deeper.not_inside below)
      · exact absurd (List.append_right_eq_self.mp same) below
  · split
    · rename_i above
      obtain ⟨rest, rfl⟩ := above
      exact ⟨fun _ => Or.inr ⟨rest ++ [last], by simp, Or.inr (by simp)⟩, fun _ => rfl⟩
    · rename_i beside
      rw [copied.directories]
      constructor
      · rintro (level | ⟨more, below, old⟩)
        · exact Or.inl level
        · exact Or.inr ⟨more, below, Or.inl old⟩
      · rintro (level | ⟨more, below, old | new⟩)
        · exact Or.inl level
        · exact Or.inr ⟨more, below, old⟩
        · -- a proper beginning of the new names would be on the way
          obtain ⟨more', final, rfl⟩ := List.eq_nil_or_concat more |>.resolve_left below
          rw [List.concat_eq_append, ← List.append_assoc] at new
          exact absurd ⟨more', (List.append_inj' new rfl).1⟩ beside

end Add

/-- One more file, and the directories it needs. -/
theorem add (copied : Copied cwd m d P s t) (isSource : IsSource s (m.place cwd) (init ++ [last]) contents)
    (copyable : Copyable s (m.place cwd) (d.place cwd) d.text (init ++ [last])) {t' : Store}
    (tree' : t'.TreeAt cwd) (rule : ∀ place, t'.rule place = t.rule place)
    (exact_t' : ∀ place, t'.get? place =
      if place = d.place cwd ++ (init ++ [last]) then some (.file contents false)
      else if place <+: d.place cwd ++ init then some .directory else t.get? place) :
    Copied cwd m d (fun names => P names ∨ names = init ++ [last]) s t' := by
  have within (names : List String) : t'.get? (d.place cwd ++ names) =
      if names = init ++ [last] then some (.file contents false)
      else if names <+: init then some .directory else t.get? (d.place cwd ++ names) := by
    rw [exact_t']
    simp only [List.append_cancel_left_eq, List.prefix_append_right_inj]
  refine ⟨tree', fun place => (rule place).trans (copied.rule place), ?_, ?_,
    files_add within copied isSource, directories_add within copied isSource⟩
  · intro place beside
    have other : place ≠ d.place cwd ++ (init ++ [last]) := by
      rintro rfl
      exact beside (List.prefix_append _ _)
    rw [exact_t', if_neg other, ← copied.outside place beside]
    split
    · rename_i above
      have onWay : place <+: d.place cwd :=
        (List.prefix_or_prefix_of_prefix above (List.prefix_append _ _)).resolve_right beside
      rw [copied.way onWay]
    · rfl
  · rintro names (old | rfl)
    · exact copied.sources names old
    · exact ⟨⟨contents, isSource⟩, copyable⟩

end Copied

section File

variable {t' : Store} {init : List String} {last : String} {contents : Bytes}
  {valid : ∀ name ∈ init ++ [last], IsName name}

theorem run_copyFile (ready : Ready cwd source m d s) (copied : Copied cwd m d P s t)
    (isSource : IsSource s (m.place cwd) (init ++ [last]) contents)
    (seen : (m.under (init ++ [last]) valid).text.utf8ByteSize < pathLimit)
    (copyable : Copyable s (m.place cwd) (d.place cwd) d.text (init ++ [last])) :
    ∃ t', (copyFile id d.text (m.under (init ++ [last]) valid).text
        (Normal.below (init ++ [last]) valid).text).run t = (.ok (), t') ∧
      Copied cwd m d (fun names => P names ∨ names = init ++ [last]) s t' := by
  obtain ⟨⟨executable, there, -⟩, name, isLast, isExtension⟩ := id isSource
  rw [List.getLast?_concat, Option.mem_some_iff] at isLast
  subst isLast
  have found : t.find (m.under (init ++ [last]) valid).text = _ :=
    (copied.find_iff ready (by simp)).mpr ⟨there, seen⟩
  have usable : (d.under (init ++ [last]) valid).IsUsable :=
    (ready.made.1.under_iff fun name member =>
      Store.usable_of_get? there name (List.mem_append_right _ member)).mpr
        (by rw [← d.cleans_text.join valid]; exact copyable.short)
  rw [Normal.under_append] at usable
  obtain ⟨t₁, made, exact_t₁⟩ := FileAction.run_makeDirectories copied.tree _ usable.of_under
    (copied.way (List.prefix_append _ _))
    fun place way => copied.free isSource copyable (by rwa [Normal.place_under] at way)
  have changes : Store.Changes cwd (fun _ => True) (fun _ => False) t t₁ :=
    (FileAction.makeDirectories_changes fun _ => trivial).of_run made
  have grows : Store.Grows cwd t t₁ := changes.grows fun _ _ touched => touched.elim
  obtain ⟨tree₁, outside⟩ := changes copied.tree
  have rule (place : Location) : t₁.rule place = s.rule place :=
    (outside place not_false).1.trans (copied.rule place)
  rw [Normal.place_under] at exact_t₁
  have directory : t₁.get? (d.place cwd ++ init) = some .directory := by
    rw [exact_t₁, if_pos List.prefix_rfl]
  have leads := tree₁.target_name usable (by rwa [Normal.place_under])
  rw [Normal.place_under] at leads
  have aside : ¬ d.place cwd ++ init ++ [last] <+: d.place cwd ++ init := by
    intro way
    have lengths := way.length_le
    rw [List.length_append, List.length_singleton] at lengths
    omega
  have old (entry : Entry) (there : t₁.get? (d.place cwd ++ init ++ [last]) = some entry) :
      ∃ old, entry = .file old false := by
    rw [exact_t₁, if_neg aside, List.append_assoc] at there
    exact copied.old_copy isSource there
  have noDirectory : t₁.get? (d.place cwd ++ init ++ [last]) ≠ some .directory := by
    intro there
    obtain ⟨_, impossible⟩ := old _ there
    cases impossible
  have writable : (t₁.rule (d.place cwd ++ init ++ [last])).unwritable = false := by
    rw [rule, List.append_assoc]
    exact copyable.writable _ List.prefix_rfl (by simp)
  have written := FileAction.run_writeFileAs leads old writable contents
  refine ⟨t₁.insert (d.place cwd ++ init ++ [last]) (.file contents false), ?_,
    copied.add isSource copyable tree₁.insert ?_ ?_⟩
  · have read : (id t₁).readFile (m.under (init ++ [last]) valid).text = .ok contents := by
      obtain ⟨place, located⟩ := Store.exists_locate (grows.find copied.tree found)
      have here := tree₁.place_of_locate located
      rw [Normal.place_text, Normal.place_under] at here
      rw [id, Store.readFile, located]
      dsimp only
      rw [here, rule, copyable.readable]
      rfl
    rw [copyFile, Path.extension_under, if_pos isExtension]
    dsimp only
    rw [Normal.join_text, Normal.directory_under, run_bind_ok made, run_bind_ok (Attempt.run_get t₁),
      read, Normal.under_append]
    exact written
  · intro place
    rw [Store.rule_congr Store.rules_insert]
    exact (outside place not_false).1
  · intro place
    rw [Store.get?_insert (Store.fits_of_named leads (Or.inr noDirectory)), exact_t₁, List.append_assoc]

theorem copyable_of_run (copied : Copied cwd m d P s t)
    (isSource : IsSource s (m.place cwd) (init ++ [last]) contents)
    (ran : (copyFile id d.text (m.under (init ++ [last]) valid).text
      (Normal.below (init ++ [last]) valid).text).run t = (.ok (), t')) :
    Copyable s (m.place cwd) (d.place cwd) d.text (init ++ [last]) := by
  obtain ⟨-, name, isLast, isExtension⟩ := isSource
  rw [List.getLast?_concat, Option.mem_some_iff] at isLast
  subst isLast
  rw [copyFile, Path.extension_under, if_pos isExtension] at ran
  dsimp only at ran
  rw [Normal.join_text, Normal.directory_under] at ran
  obtain ⟨_, t₁, made, copying⟩ := Attempt.run_bind_eq_ok.mp ran
  rw [run_bind_ok (Attempt.run_get t₁)] at copying
  have changes : Store.Changes cwd (fun _ => True) (fun _ => False) t t₁ :=
    (FileAction.makeDirectories_changes fun _ => trivial).of_run made
  obtain ⟨tree₁, outside⟩ := changes copied.tree
  have rule (place : Location) : t₁.rule place = s.rule place :=
    (outside place not_false).1.trans (copied.rule place)
  cases read : (id t₁).readFile (m.under (init ++ [last]) valid).text with
  | error fault =>
      rw [read] at copying
      cases copying
  | ok bytes =>
      rw [read] at copying
      rcases FileAction.writeFileAs_cases t₁ false (d.under (init ++ [last]) valid).text bytes with
        ⟨fault, failed⟩ | ⟨parent, name, mode, leads, -, writable, -⟩
      · have stopped := failed.symm.trans copying
        cases stopped
      · refine ⟨?_, ?_, ?_⟩
        · rw [d.cleans_text.join valid]
          exact (Store.usable_of_target leads).size
        · have readable := (tree₁.file_of_readFile read).2
          rwa [Normal.place_text, Normal.place_under, rule] at readable
        · intro more way filled
          rcases List.prefix_concat_iff.mp way with rfl | above
          · rwa [tree₁.named_under valid leads, rule] at writable
          · -- a directory on the way is there in the end: it was made now, or for a file copied before
            have based : t₁.get? ((d.under init fun name member =>
                valid name (List.mem_append_left _ member)).base cwd) = some .directory :=
              changes.kept copied.tree (copied.way (List.prefix_append _ _)) not_false
            have directory := (FileAction.directory_of_makeDirectories copied.tree made).2
            rw [tree₁.sees_eq based, Normal.place_under] at directory
            have there : t₁.get? (d.place cwd ++ more) = some .directory := by
              by_cases whole : d.place cwd ++ more = d.place cwd ++ init
              · rw [whole, directory]
              · exact Store.directory_of_isPrefix directory ((List.prefix_append_right_inj _).mpr above) whole
            rcases (outside (d.place cwd ++ more) not_false).2 with same | ⟨-, free, -⟩
            · rcases (copied.directories more).mp (same ▸ there) with level | ⟨rest, -, old⟩
              · exact absurd level filled
              · exact (copied.sources _ old).2.writable more (List.prefix_append _ _) filled
            · rw [← copied.rule]
              exact free.2

/-- Copying a source file succeeds exactly if it can be copied. -/
theorem copyFile_settles (ready : Ready cwd source m d s) (copied : Copied cwd m d P s t)
    (isSource : IsSource s (m.place cwd) (init ++ [last]) contents)
    (seen : (m.under (init ++ [last]) valid).text.utf8ByteSize < pathLimit) :
    Settles (copyFile id d.text (m.under (init ++ [last]) valid).text
        (Normal.below (init ++ [last]) valid).text) t
      (Copyable s (m.place cwd) (d.place cwd) d.text (init ++ [last]))
      (Copied cwd m d (fun names => P names ∨ names = init ++ [last]) s) := by
  by_cases copyable : Copyable s (m.place cwd) (d.place cwd) d.text (init ++ [last])
  · exact Or.inl ⟨copyable, run_copyFile ready copied isSource seen copyable⟩
  · refine Or.inr ⟨copyable, ?_⟩
    rcases ran : (copyFile id d.text (m.under (init ++ [last]) valid).text
      (Normal.below (init ++ [last]) valid).text).run t with ⟨fault | done, t'⟩
    · exact ⟨fault, t', rfl⟩
    · exact absurd (copyable_of_run copied isSource ran) copyable

end File

section Walk

variable {names : List String} {name : String} {path : String}

theorem run_readNames (tree : t.TreeAt cwd) (found : t.find path = .ok .directory) :
    (readNames id path).run t =
      if (t.rule (Path.place cwd path)).unreadable then (.error ⟨"open", path, .denied⟩, t)
      else (.ok (t.children (Path.place cwd path)), t) := by
  obtain ⟨place, located⟩ := Store.exists_locate found
  have here := tree.place_of_locate located
  rw [readNames, run_bind_ok (Attempt.run_get t), id, namesAt, located]
  dsimp only
  rw [← here]
  cases (t.rule place).unreadable with
  | true => rfl
  | false => rfl

/-- What is no source and leads no further is passed over. -/
theorem settles_pass (copied : Copied cwd m d P s t)
    (here : Storable s (m.place cwd) (d.place cwd) source d.text names) (ends : Ends s (m.place cwd) names)
    (other : ∀ contents, ¬ IsSource s (m.place cwd) names contents) :
    Settles (pure () : FileAction Unit) t
      (∀ r, names <+: r → Storable s (m.place cwd) (d.place cwd) source d.text r)
      (Copied cwd m d (fun r => P r ∨ Handled s (m.place cwd) names r) s) := by
  apply Settles.pure
  · exact ends.storable_iff.mpr here
  · apply copied.congr
    intro r
    rw [ends.handled_iff]
    simp [other]

/-- A file is copied if it is a source, and passed over if not. -/
theorem settles_file (ready : Ready cwd source m d s) (copied : Copied cwd m d P s t)
    (valid : ∀ e ∈ names ++ [name], IsName e)
    (seen : (m.under (names ++ [name]) valid).text.utf8ByteSize < pathLimit)
    (shown : ∀ e ∈ names, isHidden e = false) {contents : Bytes} {executable : Bool}
    (there : s.get? (m.place cwd ++ (names ++ [name])) = some (.file contents executable)) :
    Settles (copyFile id d.text (m.under (names ++ [name]) valid).text
        (Normal.below (names ++ [name]) valid).text) t
      (∀ r, names ++ [name] <+: r → Storable s (m.place cwd) (d.place cwd) source d.text r)
      (Copied cwd m d (fun r => P r ∨ Handled s (m.place cwd) (names ++ [name]) r) s) := by
  have ends : Ends s (m.place cwd) (names ++ [name]) := ends_of_not_directory (by simp [there])
  have storable (copyable : ∀ contents, IsSource s (m.place cwd) (names ++ [name]) contents →
      Copyable s (m.place cwd) (d.place cwd) d.text (names ++ [name])) :
      Storable s (m.place cwd) (d.place cwd) source d.text (names ++ [name]) := by
    refine ⟨fun _ _ => by rwa [ready.cleans.join valid], ?_, copyable⟩
    rintro (level | ⟨directory, -⟩)
    · simp at level
    · rw [there] at directory
      cases directory
  by_cases isExtension : Path.extension name = sourceExtension
  · have isSource : IsSource s (m.place cwd) (names ++ [name]) contents :=
      ⟨⟨executable, there, by simpa using shown⟩, name, by simp, isExtension⟩
    apply (copyFile_settles ready copied isSource seen).mono
    · rw [ends.storable_iff]
      exact ⟨fun copyable => storable fun _ _ => copyable, fun here => here.copyable contents isSource⟩
    · intro t' copied'
      apply copied'.congr
      intro r
      rw [ends.handled_iff, and_iff_left ⟨contents, isSource⟩]
  · have other (contents : Bytes) : ¬ IsSource s (m.place cwd) (names ++ [name]) contents := by
      rintro ⟨-, e, isLast, isExtension'⟩
      rw [List.getLast?_concat, Option.mem_some_iff] at isLast
      exact isExtension (isLast ▸ isExtension')
    rw [copyFile, Path.extension_under, if_neg isExtension]
    exact settles_pass copied (storable fun contents isSource => absurd isSource (other contents)) ends other

/-- The names of a hidden directory are read, and it is passed over. -/
theorem settles_hidden (ready : Ready cwd source m d s) (copied : Copied cwd m d P s t)
    (valid : ∀ e ∈ names ++ [name], IsName e)
    (seen : (m.under (names ++ [name]) valid).text.utf8ByteSize < pathLimit)
    (shown : ∀ e ∈ names, isHidden e = false) (hidden : isHidden name = true)
    (there : s.get? (m.place cwd ++ (names ++ [name])) = some .directory)
    (found : t.find (m.under (names ++ [name]) valid).text = .ok .directory) :
    Settles (readNames id (m.under (names ++ [name]) valid).text >>= fun _ => pure ()) t
      (∀ r, names ++ [name] <+: r → Storable s (m.place cwd) (d.place cwd) source d.text r)
      (Copied cwd m d (fun r => P r ∨ Handled s (m.place cwd) (names ++ [name]) r) s) := by
  have other (contents : Bytes) : ¬ IsSource s (m.place cwd) (names ++ [name]) contents :=
    fun isSource => isSource.not_directory there
  have reading := run_readNames copied.tree found
  rw [Normal.place_text, Normal.place_under, copied.rule] at reading
  cases readable : (s.rule (m.place cwd ++ (names ++ [name]))).unreadable with
  | true =>
      rw [readable, if_pos rfl] at reading
      refine Or.inr ⟨?_, _, t, run_bind_error reading⟩
      intro all
      rw [(all _ List.prefix_rfl).listed (Or.inr ⟨there, by simpa using shown⟩)] at readable
      cases readable
  | false =>
      rw [readable, if_neg (by decide)] at reading
      refine .bind_ok reading (settles_pass copied ⟨?_, fun _ => readable, ?_⟩ (ends_of_hidden hidden) other)
      · intro _ _
        rwa [ready.cleans.join valid]
      · exact fun contents isSource => absurd isSource (other contents)

/-- Below a directory, the names in it decide. -/
theorem storable_below_iff {root goal : Location} {destination : String} {list : List String}
    (here : Storable s root goal source destination names)
    (children : ∀ e, e ∈ list ↔ ∃ entry, s.get? (root ++ (names ++ [e])) = some entry) :
    (∀ e ∈ list, ∀ r, names ++ [e] <+: r → Storable s root goal source destination r) ↔
      ∀ r, names <+: r → Storable s root goal source destination r := by
  constructor
  · intro each r down
    by_cases level : r = names
    · rwa [level]
    · by_cases below : ∃ e ∈ list, names ++ [e] <+: r
      · obtain ⟨e, member, next⟩ := below
        exact each e member r next
      · apply storable_of_absent
        · rintro rfl
          exact level (List.prefix_nil.mp down).symm
        · intro entry reached
          obtain ⟨e, next, there⟩ := reached.next down level
          exact below ⟨e, (children e).mpr there, next⟩
  · exact fun all e _ r next => all r ((List.prefix_append _ _).trans next)

theorem handled_below_iff {root : Location} {list r : List String}
    (other : ∀ contents, ¬ IsSource s root names contents)
    (children : ∀ e, e ∈ list ↔ ∃ entry, s.get? (root ++ (names ++ [e])) = some entry) :
    (∃ e ∈ list, Handled s root (names ++ [e]) r) ↔ Handled s root names r := by
  constructor
  · rintro ⟨e, -, next, isSource⟩
    exact ⟨(List.prefix_append _ _).trans next, isSource⟩
  · rintro ⟨down, contents, isSource⟩
    have further : r ≠ names := by
      rintro rfl
      exact other contents isSource
    obtain ⟨⟨_, reached⟩, -⟩ := id isSource
    obtain ⟨e, next, there⟩ := reached.next down further
    exact ⟨e, (children e).mpr there, next, contents, isSource⟩

/-- The walk from a directory of the source succeeds exactly if all below it can be stored, and then has
copied the source files below it. It never comes as deep as paths can be long. -/
theorem copyBelow_settles (ready : Ready cwd source m d s) (depth : Nat)
    {valid : ∀ e ∈ names, IsName e} (cleans : (m.under names valid).Cleans path)
    (found : s.find path = .ok .directory) (shown : ∀ e ∈ names, isHidden e = false)
    (entered : names = [] ∨ s.get? (m.place cwd ++ names) = some .directory)
    (seen : (m.under names valid).text.utf8ByteSize < pathLimit)
    (fuel : names.length + depth = pathLimit) (copied : Copied cwd m d P s t) :
    Settles (copyBelow id d.text depth path (Normal.below names valid).text) t
      (∀ r, names <+: r → Storable s (m.place cwd) (d.place cwd) source d.text r)
      (Copied cwd m d (fun r => P r ∨ Handled s (m.place cwd) names r) s) := by
  induction depth generalizing names path P t with
  | zero =>
      -- a path that can be used has fewer names than this
      have size := (m.size_under valid).2
      omega
  | succ depth ih =>
      have other (contents : Bytes) : ¬ IsSource s (m.place cwd) names contents :=
        fun isSource => entered.elim isSource.filled isSource.not_directory
      have reached : names = [] ∨ Reached s (m.place cwd) names .directory :=
        entered.imp_right fun there => ⟨there, fun e member => shown e (List.dropLast_subset _ member)⟩
      have reading := run_readNames copied.tree ((copied.grows ready).find ready.tree found)
      rw [cleans.place, Normal.place_under, copied.rule] at reading
      rw [copyBelow]
      cases readable : (s.rule (m.place cwd ++ names)).unreadable with
      | true =>
          rw [readable, if_pos rfl] at reading
          refine Or.inr ⟨?_, _, t, run_bind_error reading⟩
          intro all
          rw [(all names List.prefix_rfl).listed reached] at readable
          cases readable
      | false =>
          rw [readable, if_neg (by decide)] at reading
          have children (name : String) : name ∈ t.children (m.place cwd ++ names) ↔
              ∃ entry, s.get? (m.place cwd ++ (names ++ [name])) = some entry := by
            rw [Store.mem_children, List.append_assoc, copied.same ready, Option.isSome_iff_exists]
          have here : Storable s (m.place cwd) (d.place cwd) source d.text names :=
            ⟨fun _ _ => by rwa [ready.cleans.join valid], fun _ => readable,
              fun contents isSource => absurd isSource (other contents)⟩
          refine .bind_ok reading ?_
          -- the names are read once; copying changes nothing among them, since it works apart from the source
          refine (Settles.forM
            (G := fun name => ∀ r, names ++ [name] <+: r →
              Storable s (m.place cwd) (d.place cwd) source d.text r)
            (I := fun before => Copied cwd m d (fun r => P r ∨
              ∃ name ∈ before, Handled s (m.place cwd) (names ++ [name]) r) s) ?_ ?_).mono
            (storable_below_iff here children) fun t' copied' => copied'.congr fun r =>
              or_congr_right (handled_below_iff other children)
          · intro before name member t' copied'
            obtain ⟨entry, there⟩ := (children name).mp member
            have valid' : ∀ e ∈ names ++ [name], IsName e := fun e inside =>
              (Store.usable_of_get? there e (List.mem_append_right _ inside)).1
            have single : ∀ e ∈ [name], IsName e := fun e inside => valid' e (List.mem_append_right _ inside)
            have next : Path.join [path, name] = (m.under (names ++ [name]) valid').text := by
              rw [cleans.join single, Normal.under_append]
            have relative : Path.join [(Normal.below names valid).text, name] =
                (Normal.below (names ++ [name]) valid').text :=
              (Normal.below names valid).cleans_text.join single
            have widened (r : List String) :
                (P r ∨ ∃ e ∈ before, Handled s (m.place cwd) (names ++ [e]) r) ∨
                  Handled s (m.place cwd) (names ++ [name]) r ↔
                P r ∨ ∃ e ∈ before ++ [name], Handled s (m.place cwd) (names ++ [e]) r := by
              simp only [List.mem_append, List.mem_singleton, or_and_right, exists_or, exists_eq_left, or_assoc]
            dsimp only
            rw [next, relative]
            refine .bind_ok (Attempt.run_get t')
              (.mono ?_ Iff.rfl fun t'' after => Copied.congr after widened)
            cases looked : (id t').find (m.under (names ++ [name]) valid').text with
            | error reason =>
                refine Or.inr ⟨?_, _, t', rfl⟩
                intro all
                have short := (all _ List.prefix_rfl).seen entry ⟨there, by simpa using shown⟩
                rw [ready.cleans.join valid'] at short
                rw [id, (copied'.find_iff ready (by simp)).mpr ⟨there, short⟩] at looked
                cases looked
            | ok entry' =>
                obtain ⟨there', seen'⟩ := (copied'.find_iff ready (by simp)).mp looked
                cases entry' with
                | directory =>
                    dsimp only
                    split
                    · rename_i hidden
                      exact settles_hidden ready copied' valid' seen' shown hidden there' looked
                    · rename_i visible
                      rw [Bool.not_eq_true] at visible
                      refine ih (Normal.cleans_text _) ?_ ?_ (Or.inr there') seen' ?_ copied'
                      · exact (ready.start.find_iff ready (by simp)).mpr ⟨there', seen'⟩
                      · simpa [or_imp, forall_and] using ⟨shown, visible⟩
                      · rw [List.length_append, List.length_singleton]
                        omega
                | file contents executable => exact settles_file ready copied' valid' seen' shown there'
          · exact copied.congr fun r => by simp

/-- The walk from the source copies all its source files. -/
theorem copyBelow_source_settles (ready : Ready cwd source m d s) :
    Settles (copyBelow id d.text pathLimit source ".") s
      (∀ r, Storable s (m.place cwd) (d.place cwd) source d.text r)
      (Copied cwd m d (fun r => ∃ contents, IsSource s (m.place cwd) r contents) s) := by
  have valid : ∀ e ∈ ([] : List String), IsName e := fun _ member => absurd member List.not_mem_nil
  have cleans : (m.under [] valid).Cleans source := by
    rw [Normal.under_nil]
    exact ready.cleans
  have seen : (m.under [] valid).text.utf8ByteSize < pathLimit := by
    rw [Normal.under_nil]
    exact ready.usable.size
  have shown : ∀ e ∈ ([] : List String), isHidden e = false := fun _ member => absurd member List.not_mem_nil
  apply (copyBelow_settles ready pathLimit cleans ready.found shown (Or.inl rfl) seen (Nat.zero_add _)
    ready.start).mono
  · exact ⟨fun all r => all r List.nil_prefix, fun all r _ => all r⟩
  · intro t copied
    apply copied.congr
    intro r
    rw [false_or, Handled, and_iff_right List.nil_prefix]

end Walk

end Cache

end DawnC
