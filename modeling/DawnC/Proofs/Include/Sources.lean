import DawnC.Proofs.Include.Cached
import DawnC.Proofs.Include.Walk

set_option autoImplicit false

namespace DawnC

/-- All the directives among atoms, of which the first has the index given, are listed. -/
def ListsAll (index : Nat) (atoms : List Atom) (includes : List (Nat × String)) : Prop :=
  ∀ k a, atoms[k]? = some a → a.isInclude = true → index + k ∈ includes.map Prod.fst

namespace ListsAll

variable {index : Nat} {a : Atom} {rest : List Atom} {includes : List (Nat × String)}

theorem nil (index : Nat) (includes : List (Nat × String)) : ListsAll index [] includes :=
  fun _ _ found => absurd found (by simp)

theorem tail (all : ListsAll index (a :: rest) includes) : ListsAll (index + 1) rest includes := by
  intro k b found isInclude
  have listed := all (k + 1) b (by simpa using found) isInclude
  rwa [← Nat.add_assoc, Nat.add_right_comm] at listed

theorem text (text : a.isInclude = false) (all : ListsAll (index + 1) rest includes) :
    ListsAll index (a :: rest) includes := by
  intro k b found isInclude
  cases k with
  | zero =>
      cases found
      cases text.symm.trans isInclude
  | succ k =>
      have listed := all k b (by simpa using found) isInclude
      rwa [Nat.add_right_comm, Nat.add_assoc] at listed

theorem cons (target : String) (all : ListsAll (index + 1) rest includes) :
    ListsAll index (a :: rest) ((index, target) :: includes) := by
  intro k b found isInclude
  cases k with
  | zero => exact List.mem_cons_self
  | succ k =>
      have listed := all k b (by simpa using found) isInclude
      rw [Nat.add_right_comm, Nat.add_assoc] at listed
      exact List.mem_cons_of_mem _ listed

end ListsAll

/-- What was read is kept, and with it all that its directives mean. -/
def Read.IsKept (r : Read) (d : Discovery) : Prop :=
  ∃ lines includes, r.store.readLines r.path = .ok lines ∧
    d.sources.lookup r.path = some ⟨lex r.name lines, includes⟩ ∧
    ListsAll 0 (lex r.name lines) includes

theorem Read.IsKept.of_entry {r : Read} {d d' : Discovery} (kept : r.IsKept d)
    (same : d'.entry r.path = d.entry r.path) : r.IsKept d' := by
  obtain ⟨lines, includes, read, found, all⟩ := kept
  exact ⟨lines, includes, read, (congrArg Prod.fst same).trans found, all⟩

/-- The directives that a task follows are added to its file. -/
def Task.Follows (d d' : Discovery) : Task → Prop
  | .file .. => True
  | .directives path _ index atoms =>
    ∃ new, d'.entry path = Discovery.including new (d.entry path) ∧ ListsAll index atoms new

/-- What a task changes. -/
structure Keeps (task : Task) (d : Discovery) (reads : List Read) (d' : Discovery) : Prop where
  frame : ∀ x ∈ d.keys, x ≠ task.path → d'.entry x = d.entry x
  follows : task.Follows d d'
  reads : ∀ r ∈ reads, r.IsKept d'

theorem Walks.keeps {fetcher : Option Fetcher} {level : Nat} {task : Task} {d d' : Discovery}
    {w w' : World} {reads : List Read} (walks : Walks fetcher level task d w reads (.ok d') w')
    (ready : task.Ready d) : Keeps task d reads d' := by
  generalize outcome : Except.ok d' = result at walks
  induction walks generalizing d' with
  | unread failed => cases outcome
  | @read level path name d w w' lines reads result read inside ih =>
      have new : path ∉ d.keys := by
        intro member
        exact (List.nodup_append.mp ready.nodup).2.2 path member path List.mem_cons_self rfl
      have entry := Discovery.entry_addSource new (lex name lines)
      have member : path ∈ (d.addSource path (lex name lines)).keys := by simp
      have later := ih ⟨ready.addSource _, member⟩ outcome
      refine ⟨fun x earlier other => ?_, trivial, List.forall_mem_cons.mpr ⟨?_, later.reads⟩⟩
      · have known : x ∈ (d.addSource path (lex name lines)).keys := by simp [earlier]
        exact (later.frame x known other).trans ((entry x).trans (if_neg other))
      · obtain ⟨includes, own, all⟩ := later.follows
        rw [entry, if_pos rfl] at own
        exact ⟨lines, includes, read, congrArg Prod.fst own, all⟩
  | nil =>
      cases outcome
      exact ⟨fun _ _ _ => rfl, ⟨[], by simp, .nil _ _⟩, by simp⟩
  | text text later ih =>
      obtain ⟨frame, ⟨new, own, all⟩, kept⟩ := ih ready outcome
      exact ⟨frame, ⟨new, own, all.text text⟩, kept⟩
  | atEnd isInclude => cases outcome
  | unresolved isInclude failed => cases outcome
  | @known level path name found called index a target rest d w w₁ w' reads result isInclude resolved
      known later ih =>
      have node := (ready.1.nodes path).mpr (Or.inr ready.2)
      have entry := Discovery.entry_addInclude node index found
      obtain ⟨frame, ⟨new, own, all⟩, kept⟩ :=
        ih ⟨ready.1.addInclude_known index known, by simpa using ready.2⟩ outcome
      refine ⟨fun x earlier other => ?_, ⟨(index, found) :: new, ?_, all.cons found⟩, kept⟩
      · exact (frame x (by simpa using earlier) other).trans ((entry x).trans (if_neg other))
      · rw [own, entry, if_pos rfl, Discovery.including_append]
        rfl
  | failed isInclude resolved new below ih => cases outcome
  | @entered level path name found called index a target rest d d₂ w w₁ w₂ w' reads reads' result
      isInclude resolved new below later ihBelow ihLater =>
      have node := (ready.1.nodes path).mpr (Or.inr ready.2)
      have entry := Discovery.entry_addInclude node index found
      have apart (x : String) (earlier : x ∈ d.keys) : x ≠ found := by
        intro same
        have met := (ready.1.nodes x).mpr (Or.inr earlier)
        rw [same, new] at met
        cases met
      have settled : (d.addInclude path index found).Settled [found] :=
        ready.1.addInclude_new index new
      have inside := ihBelow settled rfl
      cases below.settles settled with
      | ok settled₂ keys =>
          rw [Discovery.keys_addInclude] at keys
          have member : path ∈ d₂.keys := by
            rw [keys]
            exact List.mem_append_left _ ready.2
          have after := ihLater ⟨settled₂, member⟩ outcome
          have nodup := settled₂.nodup
          rw [List.append_nil, keys] at nodup
          have unchanged (x : String) (earlier : x ∈ d.keys) :
              d₂.entry x = (d.addInclude path index found).entry x :=
            inside.frame x (by simpa using earlier) (apart x earlier)
          refine ⟨fun x earlier other => ?_, ?_,
            List.forall_mem_append.mpr ⟨fun r read => ?_, after.reads⟩⟩
          · have known : x ∈ d₂.keys := by
              rw [keys]
              exact List.mem_append_left _ earlier
            rw [after.frame x known other, unchanged x earlier]
            exact (entry x).trans (if_neg other)
          · obtain ⟨more, own, all⟩ := after.follows
            refine ⟨(index, found) :: more, ?_, all.cons found⟩
            rw [own, unchanged path ready.2, entry, if_pos rfl, Discovery.including_append]
            rfl
          · -- the file that was entered is not the one whose directives are followed
            have read' : r.path ∈ reads.map Read.path := List.mem_map_of_mem read
            have known : r.path ∈ d₂.keys := by
              rw [keys]
              exact List.mem_append_right _ read'
            have other : r.path ≠ path := fun same =>
              (List.nodup_append.mp nodup).2.2 path ready.2 r.path read' same.symm
            exact (inside.reads r read).of_entry (after.frame r.path known other)

/-- The fetcher gives a reference the same path whenever it gives it one. -/
def Fetcher.IsSteady (fetch : Fetcher) : Prop :=
  ∀ text v v' w w' path path', (fetch text).run v = (.ok path, v') →
    (fetch text).run w = (.ok path', w') → path = path'

/-- How a file that a directive means is called: a local one by its path, a remote one by its
reference. -/
inductive IsCalled (fetcher : Option Fetcher) (path name : String) : Prop where
  | stored (same : name = path) (canonical : Path.IsCanonical path)
  | fetched {fetch : Fetcher} {w w' : World} (remote : Reference.looksRemote name = true)
      (given : fetch ∈ fetcher) (ran : (fetch name).run w = (.ok path, w'))

theorem looksRemote_eq_false {target : String} (absolute : Path.isAbsolute target = true) :
    Reference.looksRemote target = false := by
  rw [Reference.looksRemote, absolute]
  rfl

/-- A name is the name of one file. -/
theorem IsCalled.path_eq {fetcher : Option Fetcher} {path path' name : String}
    (steady : ∀ fetch ∈ fetcher, Fetcher.IsSteady fetch) (called : IsCalled fetcher path name)
    (called' : IsCalled fetcher path' name) : path = path' := by
  cases called with
  | stored same canonical =>
      cases called' with
      | stored same' canonical' => exact same.symm.trans same'
      | fetched remote given ran =>
          rw [same, looksRemote_eq_false canonical.1] at remote
          cases remote
  | fetched remote given ran =>
      cases called' with
      | stored same canonical =>
          rw [same, looksRemote_eq_false canonical.1] at remote
          cases remote
      | fetched remote' given' ran' =>
          cases Option.mem_unique given given'
          exact steady _ given _ _ _ _ _ _ _ ran ran'

theorem isCalled_of_resolve {fetcher : Option Fetcher} {path found called : String} {index : Nat}
    {target : Atom} {w w' : World} (absolute : Path.isAbsolute path = true)
    (resolved : (resolveDirective fetcher path index target).run w = (.ok (found, called), w')) :
    IsCalled fetcher found called ∧
      (Reference.looksRemote called = true → called = unquoted target.text) := by
  rcases resolveTarget_eq_ok (resolveDirective_eq_ok resolved) with
    ⟨remote, rfl, fetch, given, ran⟩ | ⟨-, same, meant, -⟩
  · exact ⟨.fetched remote given ran, fun _ => rfl⟩
  · have canonical : Path.IsCanonical found := by
      rw [meant]
      exact isCanonical_includedPath absolute _
    refine ⟨.stored same canonical, fun remote => ?_⟩
    rw [same, looksRemote_eq_false canonical.1] at remote
    cases remote

def Read.Mentions (r : Read) (target : String) : Prop :=
  ∃ lines, r.store.readLines r.path = .ok lines ∧ target ∈ targetsOf (lex r.name lines)

namespace Task

def IsFor (r : Read) : Task → Prop
  | .file path name => r.path = path ∧ r.name = name
  | .directives .. => False

def targets : Task → List String
  | .file .. => []
  | .directives _ _ _ atoms => targetsOf atoms

end Task

/-- A file that was read is the one of the task, or a directive means it. -/
def Read.IsMet (fetcher : Option Fetcher) (task : Task) (reads : List Read) (r : Read) : Prop :=
  task.IsFor r ∨ IsCalled fetcher r.path r.name ∧
    (Reference.looksRemote r.name = true → r.name ∈ task.targets ∨ ∃ r' ∈ reads, r'.Mentions r.name)

theorem Read.IsMet.of_directives {fetcher : Option Fetcher} {path name : String} {index : Nat}
    {atoms : List Atom} {task : Task} {reads reads' : List Read} {r : Read}
    (met : r.IsMet fetcher (.directives path name index atoms) reads)
    (targets : ∀ target ∈ targetsOf atoms, target ∈ task.targets ∨ ∃ r' ∈ reads', r'.Mentions target)
    (more : reads ⊆ reads') : r.IsMet fetcher task reads' := by
  rcases met with impossible | ⟨called, mentioned⟩
  · exact impossible.elim
  · refine Or.inr ⟨called, fun remote => ?_⟩
    rcases mentioned remote with named | ⟨r', read, mentions⟩
    · exact targets _ named
    · exact Or.inr ⟨r', more read, mentions⟩

theorem mem_targetsOf_cons {a : Atom} {rest : List Atom} {target : String}
    (named : target ∈ targetsOf rest) : target ∈ targetsOf (a :: rest) := by
  cases rest with
  | nil => exact named
  | cons b later => exact List.mem_append_right _ named

theorem mem_targetsOf_directive {a target : Atom} {rest : List Atom} (isInclude : a.isInclude = true) :
    unquoted target.text ∈ targetsOf (a :: target :: rest) := by
  rw [targetsOf, if_pos isInclude]
  exact List.mem_append_left _ List.mem_cons_self

theorem Read.IsMet.of_file {fetcher : Option Fetcher} {path name found called : String} {index : Nat}
    {a target : Atom} {rest : List Atom} {reads reads' : List Read} {r : Read} {w w' : World}
    (met : r.IsMet fetcher (.file found called) reads) (isInclude : a.isInclude = true)
    (absolute : Path.isAbsolute path = true)
    (resolved : (resolveDirective fetcher path index target).run w = (.ok (found, called), w'))
    (more : reads ⊆ reads') :
    r.IsMet fetcher (.directives path name index (a :: target :: rest)) reads' := by
  rcases met with ⟨rfl, rfl⟩ | ⟨called, mentioned⟩
  · obtain ⟨isCalled, named⟩ := isCalled_of_resolve absolute resolved
    refine Or.inr ⟨isCalled, fun remote => Or.inl ?_⟩
    rw [named remote]
    exact mem_targetsOf_directive isInclude
  · refine Or.inr ⟨called, fun remote => ?_⟩
    rcases mentioned remote with named | ⟨r', read, mentions⟩
    · exact absurd named List.not_mem_nil
    · exact Or.inr ⟨r', more read, mentions⟩

theorem Walks.isMet {fetcher : Option Fetcher} {level : Nat} {task : Task} {d : Discovery}
    {w w' : World} {reads : List Read} {result : Except Fault Discovery}
    (walks : Walks fetcher level task d w reads result w')
    (canonical : ∀ fetch ∈ fetcher, Fetcher.IsCanonical fetch)
    (start : Path.IsCanonical task.path) : ∀ r ∈ reads, r.IsMet fetcher task reads := by
  induction walks with
  | unread failed => exact List.forall_mem_singleton.mpr (Or.inl ⟨rfl, rfl⟩)
  | @read level path name d w w' lines reads result read inside ih =>
      refine List.forall_mem_cons.mpr ⟨Or.inl ⟨rfl, rfl⟩, fun r member => ?_⟩
      refine (ih start r member).of_directives (fun target named => ?_) (List.subset_cons_self _ _)
      exact Or.inr ⟨_, List.mem_cons_self, lines, read, named⟩
  | nil => simp
  | text text later ih =>
      intro r member
      exact (ih start r member).of_directives (fun target named => Or.inl (mem_targetsOf_cons named))
        (List.Subset.refl _)
  | atEnd isInclude => simp
  | unresolved isInclude failed => simp
  | known isInclude resolved known later ih =>
      intro r member
      exact (ih start r member).of_directives (fun target named => Or.inl (mem_targetsOf_cons named))
        (List.Subset.refl _)
  | failed isInclude resolved new below ih =>
      intro r member
      have below := ih (isCanonical_of_resolve canonical start.1 resolved) r member
      exact below.of_file isInclude start.1 resolved (List.Subset.refl _)
  | entered isInclude resolved new below later ihBelow ihLater =>
      have inside := ihBelow (isCanonical_of_resolve canonical start.1 resolved)
      refine List.forall_mem_append.mpr ⟨fun r member => ?_, fun r member => ?_⟩
      · exact (inside r member).of_file isInclude start.1 resolved (List.subset_append_left _ _)
      · exact (ihLater start r member).of_directives
          (fun target named => Or.inl (mem_targetsOf_cons named)) (List.subset_append_right _ _)

end DawnC
