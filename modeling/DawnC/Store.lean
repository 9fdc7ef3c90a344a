import DawnC.Path
import DawnC.Text.Utf8

set_option autoImplicit false

namespace DawnC

/-- Names from the root down. -/
abbrev Location := List String

/-- The places above `place`, outermost first. -/
def Location.above (place : Location) : List Location := (List.range place.length).map place.take

inductive Entry where
  | directory
  | file (contents : Bytes) (executable : Bool)
  deriving DecidableEq, Repr

/-- What the system does not let the user do at a place, whatever is there. -/
structure Rule where
  /-- it can be neither removed nor replaced -/
  kept : Bool := false
  /-- a file cannot be read, and the names in a directory cannot be listed -/
  unreadable : Bool := false
  /-- nothing can be made there, and no file written -/
  unwritable : Bool := false
  /-- another device begins there -/
  mount : Bool := false
  deriving DecidableEq, Repr

/-- What is there cannot be removed. -/
def Rule.stays (r : Rule) : Bool := r.kept || r.mount

/-- A name of more bytes than this cannot be used. -/
def nameLimit : Nat := 255

/-- A name that an entry can have. -/
def IsUsableName (name : String) : Prop :=
  Path.IsName name ∧ '\x00' ∉ name.toList ∧ name.utf8ByteSize ≤ nameLimit

instance (name : String) : Decidable (IsUsableName name) :=
  inferInstanceAs (Decidable (_ ∧ _ ∧ _))

/-- The place lies in a directory of the entries, or in the root. -/
def IsPlaced (entries : List (Location × Entry)) (place : Location) : Prop :=
  place ≠ [] ∧ (∀ name ∈ place, IsUsableName name) ∧
    (place.dropLast = [] ∨ (place.dropLast, .directory) ∈ entries)

instance (entries : List (Location × Entry)) (place : Location) : Decidable (IsPlaced entries place) :=
  inferInstanceAs (Decidable (_ ∧ _ ∧ _))

theorem usable_nil : ∀ name ∈ ([] : Location), IsUsableName name := fun _ member => nomatch member

theorem placed_nil : ∀ e ∈ ([] : List (Location × Entry)), IsPlaced [] e.1 := fun _ member => nomatch member

/-- A file tree without links, in which every directory can be searched. The root is always there. -/
structure Store where
  /-- the working directory, which is gone while no directory is at this place -/
  cwd : Location := []
  /-- what is there besides the root -/
  entries : List (Location × Entry) := []
  /-- the first of a location counts; without one the user may do everything -/
  rules : List (Location × Rule) := []
  /-- the working directory may be gone, but it was a place -/
  usable : ∀ name ∈ cwd, IsUsableName name := by first | exact DawnC.usable_nil | decide +kernel
  distinct : (entries.map (·.1)).Nodup := by first | exact List.nodup_nil | decide +kernel
  placed : ∀ e ∈ entries, IsPlaced entries e.1 := by first | exact DawnC.placed_nil | decide +kernel

namespace Store

def get? (s : Store) (place : Location) : Option Entry :=
  if place = [] then some .directory else s.entries.lookup place

def rule (s : Store) (place : Location) : Rule := (s.rules.lookup place).getD {}

/-- Where the device of `place` begins, if it is not that of the root. -/
def device? (s : Store) (place : Location) : Option Location :=
  (place :: (Location.above place).reverse).find? fun p => (s.rule p).mount

/-- No file can be moved to the place, over what is there or where nothing is. -/
def refusesMove (s : Store) (place : Location) : Bool :=
  if (s.get? place).isSome then (s.rule place).stays else (s.rule place).unwritable

/-- Keeps some of the entries, with all directories that they lie in. -/
def keep (s : Store) (kept : Location → Bool)
    (closed : ∀ place, kept place = true → kept place.dropLast = true ∨ place.dropLast = []) : Store :=
  { s with
    entries := s.entries.filter fun e => kept e.1
    distinct := s.distinct.sublist (List.filter_sublist.map _)
    placed := by
      intro e member
      obtain ⟨there, staying⟩ := List.mem_filter.mp member
      obtain ⟨down, names, top | inside⟩ := s.placed e there
      · exact ⟨down, names, Or.inl top⟩
      · refine ⟨down, names, ?_⟩
        rcases closed e.1 staying with above | top
        · exact Or.inr (List.mem_filter.mpr ⟨inside, above⟩)
        · exact Or.inl top }

theorem dropLast_isPrefixOf {root place : Location} (below : root.isPrefixOf place.dropLast = true) :
    root.isPrefixOf place = true := by
  rw [List.isPrefixOf_iff_prefix] at below ⊢
  exact below.trans (List.dropLast_prefix place)

/-- Erases `place` and all that lies below it. -/
def erase (s : Store) (place : Location) : Store :=
  s.keep (fun other => !place.isPrefixOf other) (by
    intro other outside
    left
    rw [Bool.not_eq_true'] at outside ⊢
    cases below : place.isPrefixOf other.dropLast with
    | false => rfl
    | true => rw [dropLast_isPrefixOf below] at outside; exact outside)

/-- When the tree at `root` is removed, what is at `place` stays: it cannot be removed itself, or it lies
in a directory of the tree that cannot be listed. -/
def isStuck (s : Store) (root place : Location) : Bool :=
  (s.rule place).stays ||
    (Location.above place).any fun p => root.isPrefixOf p && (s.rule p).unreadable

def stuckBelow (s : Store) (root : Location) : List Location :=
  (s.entries.map (·.1)).filter fun place => root.isPrefixOf place && s.isStuck root place

/-- Erases `root` and all that lies below it, but for what is stuck and the directories on the way there. -/
def eraseTree (s : Store) (root : Location) : Store :=
  let stuck := s.stuckBelow root
  s.keep (fun place => !root.isPrefixOf place || stuck.any place.isPrefixOf) (by
    intro place staying
    left
    rw [Bool.or_eq_true, Bool.not_eq_true'] at staying ⊢
    rcases staying with outside | onWay
    · left
      cases below : root.isPrefixOf place.dropLast with
      | false => rfl
      | true => rw [dropLast_isPrefixOf below] at outside; exact outside
    · right
      obtain ⟨other, member, above⟩ := List.any_eq_true.mp onWay
      rw [List.isPrefixOf_iff_prefix] at above
      exact List.any_eq_true.mpr ⟨other, member,
        List.isPrefixOf_iff_prefix.mpr ((List.dropLast_prefix place).trans above)⟩)

/-- An entry can be put at the place: it lies in a directory, has a usable name, and covers no other
directory than itself. -/
def Fits (s : Store) (place : Location) (entry : Entry) : Prop :=
  place ≠ [] ∧ (∀ name ∈ place, IsUsableName name) ∧ s.get? place.dropLast = some .directory ∧
    (entry = .directory ∨ s.get? place ≠ some .directory)

instance (s : Store) (place : Location) (entry : Entry) : Decidable (s.Fits place entry) :=
  inferInstanceAs (Decidable (_ ∧ _ ∧ _ ∧ _))

theorem mem_of_lookup {entries : List (Location × Entry)} {place : Location} {entry : Entry}
    (found : entries.lookup place = some entry) : (place, entry) ∈ entries := by
  obtain ⟨before, after, split, -⟩ := List.lookup_eq_some_iff.mp found
  rw [split]
  exact List.mem_append_right _ List.mem_cons_self

theorem lookup_of_mem {entries : List (Location × Entry)} (distinct : (entries.map (·.1)).Nodup)
    {place : Location} {entry : Entry} (member : (place, entry) ∈ entries) :
    entries.lookup place = some entry := by
  induction entries with
  | nil => cases member
  | cons first rest ih =>
      obtain ⟨other, old⟩ := first
      obtain ⟨apart, later⟩ := List.nodup_cons.mp distinct
      rw [List.lookup_cons]
      rcases List.mem_cons.mp member with here | inside
      · cases here
        rw [beq_self_eq_true]
      · have different : (place == other) = false := by
          rw [beq_eq_false_iff_ne]
          rintro rfl
          exact apart (List.mem_map.mpr ⟨_, inside, rfl⟩)
        rw [different]
        exact ih later inside

theorem placed_insert (s : Store) {place : Location} {entry : Entry} (fits : s.Fits place entry) :
    ∀ e ∈ (place, entry) :: s.entries.filter (fun e => e.1 ≠ place),
      IsPlaced ((place, entry) :: s.entries.filter fun e => e.1 ≠ place) e.1 := by
  obtain ⟨down, names, inside, covers⟩ := fits
  intro e member
  rcases List.mem_cons.mp member with rfl | old
  · refine ⟨down, names, ?_⟩
    rw [get?] at inside
    split at inside
    · rename_i top
      exact Or.inl top
    · have below : place.dropLast ≠ place := by
        intro same
        have lengths := congrArg List.length same
        rw [List.length_dropLast] at lengths
        have positive := List.length_pos_iff.mpr down
        omega
      exact Or.inr (List.mem_cons_of_mem _
        (List.mem_filter.mpr ⟨mem_of_lookup inside, decide_eq_true below⟩))
  · obtain ⟨there, -⟩ := List.mem_filter.mp old
    obtain ⟨down', names', top | above⟩ := s.placed e there
    · exact ⟨down', names', Or.inl top⟩
    · refine ⟨down', names', Or.inr ?_⟩
      by_cases here : e.1.dropLast = place
      · rcases covers with rfl | noDirectory
        · rw [here]
          exact List.mem_cons_self
        · rw [here] at above
          rw [get?, if_neg down, lookup_of_mem s.distinct above] at noDirectory
          exact absurd rfl noDirectory
      · exact List.mem_cons_of_mem _ (List.mem_filter.mpr ⟨above, decide_eq_true here⟩)

theorem distinct_insert (s : Store) (place : Location) (entry : Entry) :
    (((place, entry) :: s.entries.filter fun e => e.1 ≠ place).map (·.1)).Nodup := by
  rw [List.map_cons, List.nodup_cons]
  refine ⟨?_, s.distinct.sublist (List.filter_sublist.map _)⟩
  intro member
  obtain ⟨e, old, here⟩ := List.mem_map.mp member
  exact of_decide_eq_true (List.mem_filter.mp old).2 here

/-- Puts an entry at a place where it fits. -/
def insert (s : Store) (place : Location) (entry : Entry) : Store :=
  if fits : s.Fits place entry then
    { s with
      entries := (place, entry) :: s.entries.filter fun e => e.1 ≠ place
      distinct := s.distinct_insert place entry
      placed := s.placed_insert fits }
  else s

/-- The names in a directory, sorted. -/
def children (s : Store) (place : Location) : List String :=
  (s.entries.filterMap fun e => if e.1.dropLast = place then e.1.getLast? else none).mergeSort
    fun a b => decide (a ≤ b)

/-- Inserts an entry and the directories above it that are missing. -/
def insertDeep (s : Store) (place : Location) (entry : Entry) : Store :=
  let s := (Location.above place).foldl
    (fun s p => if (s.get? p).isSome then s else s.insert p .directory) s
  s.insert place entry

/-- Everything below a directory, sorted: a file with its contents, a directory with a slash after
its path. -/
def tree (s : Store) (place : Location) : List (String × Option Bytes) :=
  let below := s.entries.filterMap fun e =>
    if place.isPrefixOf e.1 && place.length < e.1.length then
      let path := String.intercalate "/" (e.1.drop place.length)
      match e.2 with
      | .directory => some (path ++ "/", none)
      | .file contents _ => some (path, some contents)
    else none
  below.mergeSort fun a b => decide (a.1 ≤ b.1)

/-- The working directory as text. -/
def cwdPath (s : Store) : String := "/" ++ String.intercalate "/" s.cwd

/-- The working directory was not removed. -/
def hasWorkingDirectory (s : Store) : Bool := s.get? s.cwd = some .directory

/-- The store as a process left it: it cannot change the working directory of the one that started it. -/
def afterProcess (s left : Store) : Store := { left with cwd := s.cwd, usable := s.usable }

end Store

end DawnC
