import DawnC.Proofs.Attempt
import DawnC.Proofs.Include.Discovery

set_option autoImplicit false

namespace DawnC

open Attempt (run_bind_ok run_bind_error run_tryCatch_ok run_tryCatch_error)

def World.told (w : World) (event : Event) : World := { w with events := w.events ++ [event] }

def unreadableFault (name : String) (fault : Fault) : Fault :=
  (Fault.wrap ("reading " ++ name) fault).inPhase .read

def endFault (a : Atom) (index : Nat) : Fault :=
  .phase .inclusion a.file a.line index a.text (some (.violation .includeWithoutPath))

/-- What discovery can be at. -/
inductive Task where
  /-- a file that was met and is to be read -/
  | file (path name : String)
  /-- atoms of a file, from an index on, whose directives are to be followed -/
  | directives (path name : String) (index : Nat) (atoms : List Atom)

def Task.opens : Task → Nat
  | .file .. => 1
  | .directives .. => 0

structure Read where
  /-- how many files are then open, this one included -/
  level : Nat
  path : String
  /-- what the file is reported as -/
  name : String
  /-- the files as they are then -/
  store : Store

def Read.Succeeds (r : Read) : Prop := ∃ lines, r.store.readLines r.path = .ok lines

/-- A task is done, with this many files open: the files that are looked into, in order, and what comes
of it. -/
inductive Walks (fetcher : Option Fetcher) :
    Nat → Task → Discovery → World → List Read → Except Fault Discovery → World → Prop where
  | unread {level : Nat} {path name : String} {d : Discovery} {w : World} {fault : Fault}
      (failed : w.store.readLines path = .error fault) :
      Walks fetcher level (.file path name) d w [⟨level, path, name, w.store⟩]
        (.error (unreadableFault name fault)) w
  | read {level : Nat} {path name : String} {d : Discovery} {w w' : World} {lines : List Bytes}
      {reads : List Read} {result : Except Fault Discovery}
      (read : w.store.readLines path = .ok lines)
      (inside : Walks fetcher level (.directives path name 0 (lex name lines))
        (d.addSource path (lex name lines)) w reads result w') :
      Walks fetcher level (.file path name) d w (⟨level, path, name, w.store⟩ :: reads) result w'
  | nil {level : Nat} {path name : String} {index : Nat} {d : Discovery} {w : World} :
      Walks fetcher level (.directives path name index []) d w [] (.ok d) w
  | text {level : Nat} {path name : String} {index : Nat} {a : Atom} {rest : List Atom}
      {d : Discovery} {w w' : World} {reads : List Read} {result : Except Fault Discovery}
      (text : a.isInclude = false)
      (later : Walks fetcher level (.directives path name (index + 1) rest) d w reads result w') :
      Walks fetcher level (.directives path name index (a :: rest)) d w reads result w'
  | atEnd {level : Nat} {path name : String} {index : Nat} {a : Atom} {d : Discovery} {w : World}
      (isInclude : a.isInclude = true) :
      Walks fetcher level (.directives path name index [a]) d w [] (.error (endFault a index)) w
  | unresolved {level : Nat} {path name : String} {index : Nat} {a target : Atom} {rest : List Atom}
      {d : Discovery} {w w' : World} {fault : Fault} (isInclude : a.isInclude = true)
      (failed : (resolveDirective fetcher path index target).run w = (.error fault, w')) :
      Walks fetcher level (.directives path name index (a :: target :: rest)) d w []
        (.error fault) w'
  | known {level : Nat} {path name found called : String} {index : Nat} {a target : Atom}
      {rest : List Atom} {d : Discovery} {w w₁ w' : World} {reads : List Read}
      {result : Except Fault Discovery} (isInclude : a.isInclude = true)
      (resolved : (resolveDirective fetcher path index target).run w = (.ok (found, called), w₁))
      (known : d.graph.contains found = true)
      (later : Walks fetcher level (.directives path name (index + 1) (target :: rest))
        (d.addInclude path index found) (w₁.told (.included name called)) reads result w') :
      Walks fetcher level (.directives path name index (a :: target :: rest)) d w reads result w'
  | failed {level : Nat} {path name found called : String} {index : Nat} {a target : Atom}
      {rest : List Atom} {d : Discovery} {w w₁ w' : World} {reads : List Read} {fault : Fault}
      (isInclude : a.isInclude = true)
      (resolved : (resolveDirective fetcher path index target).run w = (.ok (found, called), w₁))
      (new : d.graph.contains found = false)
      (below : Walks fetcher (level + 1) (.file found called) (d.addInclude path index found)
        (w₁.told (.included name called)) reads (.error fault) w') :
      Walks fetcher level (.directives path name index (a :: target :: rest)) d w reads
        (.error fault) w'
  | entered {level : Nat} {path name found called : String} {index : Nat} {a target : Atom}
      {rest : List Atom} {d d' : Discovery} {w w₁ w₂ w' : World} {reads reads' : List Read}
      {result : Except Fault Discovery} (isInclude : a.isInclude = true)
      (resolved : (resolveDirective fetcher path index target).run w = (.ok (found, called), w₁))
      (new : d.graph.contains found = false)
      (below : Walks fetcher (level + 1) (.file found called) (d.addInclude path index found)
        (w₁.told (.included name called)) reads (.ok d') w₂)
      (later : Walks fetcher level (.directives path name (index + 1) (target :: rest)) d' w₂ reads'
        result w') :
      Walks fetcher level (.directives path name index (a :: target :: rest)) d w (reads ++ reads')
        result w'

namespace Walks

variable {fetcher : Option Fetcher} {level : Nat} {task : Task} {d : Discovery} {w w' : World}
  {reads : List Read} {result : Except Fault Discovery}

/-- A walk comes to one outcome. -/
theorem unique {reads' : List Read} {result' : Except Fault Discovery} {w'' : World}
    (first : Walks fetcher level task d w reads result w')
    (second : Walks fetcher level task d w reads' result' w'') :
    reads = reads' ∧ result = result' ∧ w' = w'' := by
  induction first generalizing reads' result' w'' with
  | unread failed =>
      cases second with
      | unread failed' =>
          cases failed.symm.trans failed'
          exact ⟨rfl, rfl, rfl⟩
      | read read' => cases failed.symm.trans read'
  | read read inside ih =>
      cases second with
      | unread failed' => cases read.symm.trans failed'
      | read read' inside' =>
          cases read.symm.trans read'
          obtain ⟨rfl, same⟩ := ih inside'
          exact ⟨rfl, same⟩
  | nil =>
      cases second
      exact ⟨rfl, rfl, rfl⟩
  | text text later ih =>
      cases second with
      | text _ later' => exact ih later'
      | atEnd isInclude => cases text.symm.trans isInclude
      | unresolved isInclude => cases text.symm.trans isInclude
      | known isInclude => cases text.symm.trans isInclude
      | failed isInclude => cases text.symm.trans isInclude
      | entered isInclude => cases text.symm.trans isInclude
  | atEnd isInclude =>
      cases second with
      | text text => cases text.symm.trans isInclude
      | atEnd => exact ⟨rfl, rfl, rfl⟩
  | unresolved isInclude failed =>
      cases second with
      | text text => cases text.symm.trans isInclude
      | unresolved _ failed' =>
          cases failed.symm.trans failed'
          exact ⟨rfl, rfl, rfl⟩
      | known _ resolved => cases failed.symm.trans resolved
      | failed _ resolved => cases failed.symm.trans resolved
      | entered _ resolved => cases failed.symm.trans resolved
  | known isInclude resolved known later ih =>
      cases second with
      | text text => cases text.symm.trans isInclude
      | unresolved _ failed => cases resolved.symm.trans failed
      | known _ resolved' _ later' =>
          cases resolved.symm.trans resolved'
          exact ih later'
      | failed _ resolved' new =>
          cases resolved.symm.trans resolved'
          cases known.symm.trans new
      | entered _ resolved' new =>
          cases resolved.symm.trans resolved'
          cases known.symm.trans new
  | failed isInclude resolved new below ih =>
      cases second with
      | text text => cases text.symm.trans isInclude
      | unresolved _ failed => cases resolved.symm.trans failed
      | known _ resolved' known =>
          cases resolved.symm.trans resolved'
          cases known.symm.trans new
      | failed _ resolved' _ below' =>
          cases resolved.symm.trans resolved'
          obtain ⟨rfl, same, rfl⟩ := ih below'
          exact ⟨rfl, same, rfl⟩
      | entered _ resolved' _ below' =>
          cases resolved.symm.trans resolved'
          obtain ⟨-, impossible, -⟩ := ih below'
          cases impossible
  | entered isInclude resolved new below later ihBelow ihLater =>
      cases second with
      | text text => cases text.symm.trans isInclude
      | unresolved _ failed => cases resolved.symm.trans failed
      | known _ resolved' known =>
          cases resolved.symm.trans resolved'
          cases known.symm.trans new
      | failed _ resolved' _ below' =>
          cases resolved.symm.trans resolved'
          obtain ⟨-, impossible, -⟩ := ihBelow below'
          cases impossible
      | entered _ resolved' _ below' later' =>
          cases resolved.symm.trans resolved'
          obtain ⟨rfl, same, rfl⟩ := ihBelow below'
          cases same
          obtain ⟨rfl, same⟩ := ihLater later'
          exact ⟨rfl, same⟩

/-- Every file that is looked into opens one more, so files are nested no deeper than there are looks. -/
theorem level_le (walks : Walks fetcher level task d w reads result w') :
    ∀ r ∈ reads, r.level + task.opens ≤ level + reads.length := by
  induction walks with
  | unread failed => simp [Task.opens]
  | read read inside ih =>
      intro r member
      rw [List.length_cons, Task.opens]
      rcases List.mem_cons.mp member with rfl | later
      · dsimp only
        omega
      · have bound := ih r later
        rw [Task.opens] at bound
        omega
  | nil => simp
  | text text later ih => exact ih
  | atEnd isInclude => simp
  | unresolved isInclude failed => simp
  | known isInclude resolved known later ih => exact ih
  | failed isInclude resolved new below ih =>
      intro r member
      have bound := ih r member
      simp only [Task.opens] at bound ⊢
      omega
  | entered isInclude resolved new below later ihBelow ihLater =>
      intro r member
      rw [List.length_append, Task.opens]
      rcases List.mem_append.mp member with inside | after
      · have bound := ihBelow r inside
        rw [Task.opens] at bound
        omega
      · have bound := ihLater r after
        rw [Task.opens] at bound
        omega

/-- Only the last look can fail, and then the walk does. -/
theorem succeeds (walks : Walks fetcher level task d w reads result w') :
    (∀ r ∈ reads.dropLast, r.Succeeds) ∧ ∀ d', result = .ok d' → ∀ r ∈ reads, r.Succeeds := by
  induction walks with
  | unread failed => simp
  | @read level path name d w w' lines reads result read inside ih =>
      have first : (⟨level, path, name, w.store⟩ : Read).Succeeds := ⟨lines, read⟩
      constructor
      · intro r member
        cases reads with
        | nil => cases member
        | cons second rest =>
            rw [List.dropLast_cons_cons] at member
            rcases List.mem_cons.mp member with rfl | later
            · exact first
            · exact ih.1 r later
      · intro d' success r member
        rcases List.mem_cons.mp member with rfl | later
        · exact first
        · exact ih.2 d' success r later
  | nil => simp
  | text text later ih => exact ih
  | atEnd isInclude => simp
  | unresolved isInclude failed => simp
  | known isInclude resolved known later ih => exact ih
  | failed isInclude resolved new below ih => exact ⟨ih.1, fun d' impossible => by cases impossible⟩
  | entered isInclude resolved new below later ihBelow ihLater =>
      have inside := ihBelow.2 _ rfl
      constructor
      · intro r member
        rw [List.dropLast_append] at member
        split at member
        · exact inside r (List.mem_of_mem_dropLast member)
        · rcases List.mem_append.mp member with before | after
          · exact inside r before
          · exact ihLater.1 r after
      · intro d' success r member
        rcases List.mem_append.mp member with before | after
        · exact inside r before
        · exact ihLater.2 d' success r after

end Walks

namespace Discovery

/-- The nodes are the files that were read and those of `pending`, each once, and all that directives
mean are nodes. -/
structure Settled (pending : List String) (d : Discovery) : Prop where
  nodes : ∀ x, d.graph.contains x = true ↔ x ∈ pending ∨ x ∈ d.keys
  nodup : (d.keys ++ pending).Nodup
  targets : ∀ entry ∈ d.sources, ∀ directive ∈ entry.2.includes,
    d.graph.contains directive.2 = true

namespace Settled

variable {d : Discovery} {path found : String}

theorem targets_addInclude {pending : List String} (settled : d.Settled pending) (index : Nat) :
    ∀ entry ∈ (d.addInclude path index found).sources, ∀ directive ∈ entry.2.includes,
      (d.addInclude path index found).graph.contains directive.2 = true := by
  intro entry member directive inside
  rw [contains_addInclude]
  obtain ⟨old, earlier, rfl⟩ := List.mem_map.mp member
  split at inside
  · rcases List.mem_append.mp inside with before | last
    · exact Or.inr (settled.targets old earlier directive before)
    · exact Or.inl (congrArg Prod.snd (List.mem_singleton.mp last))
  · exact Or.inr (settled.targets old earlier directive inside)

theorem addInclude_known (settled : d.Settled []) (index : Nat)
    (known : d.graph.contains found = true) : (d.addInclude path index found).Settled [] where
  nodes x := by
    rw [contains_addInclude, keys_addInclude, ← settled.nodes]
    exact ⟨fun either => either.elim (fun same => same ▸ known) id, Or.inr⟩
  nodup := by
    rw [keys_addInclude]
    exact settled.nodup
  targets := settled.targets_addInclude index

theorem addInclude_new (settled : d.Settled []) (index : Nat)
    (new : d.graph.contains found = false) : (d.addInclude path index found).Settled [found] where
  nodes x := by
    rw [contains_addInclude, keys_addInclude, settled.nodes]
    simp
  nodup := by
    have nodup := settled.nodup
    rw [List.append_nil] at nodup
    rw [keys_addInclude]
    refine List.nodup_append.mpr ⟨nodup, List.nodup_singleton _, ?_⟩
    intro x inside y single same
    have node := (settled.nodes x).mpr (Or.inr inside)
    rw [same, List.mem_singleton.mp single, new] at node
    cases node
  targets := settled.targets_addInclude index

theorem addSource (settled : d.Settled [path]) (atoms : List Atom) :
    (d.addSource path atoms).Settled [] where
  nodes x := by
    rw [graph_addSource, keys_addSource, settled.nodes, List.mem_append]
    simp [or_comm]
  nodup := by
    rw [keys_addSource, List.append_nil]
    exact settled.nodup
  targets entry member directive inside := by
    rcases List.mem_append.mp member with earlier | last
    · exact settled.targets entry earlier directive inside
    · rw [List.mem_singleton.mp last] at inside
      cases inside

end Settled

/-- What a walk that looks into these files leaves. -/
inductive Settles (d : Discovery) (reads : List Read) : Except Fault Discovery → Prop where
  | ok {d' : Discovery} (settled : d'.Settled []) (keys : d'.keys = d.keys ++ reads.map Read.path) :
      Settles d reads (.ok d')
  | error {fault : Fault} (nodup : (d.keys ++ reads.map Read.path).Nodup) :
      Settles d reads (.error fault)

theorem Settles.nodup {d : Discovery} {reads : List Read} {result : Except Fault Discovery}
    (settles : d.Settles reads result) : (d.keys ++ reads.map Read.path).Nodup := by
  cases settles with
  | ok settled keys =>
      have nodup := settled.nodup
      rwa [List.append_nil, keys] at nodup
  | error nodup => exact nodup

theorem Settles.after {d₀ d : Discovery} {reads reads' : List Read}
    {result : Except Fault Discovery} (settles : d.Settles reads' result)
    (keys : d.keys = d₀.keys ++ reads.map Read.path) : d₀.Settles (reads ++ reads') result := by
  cases settles with
  | ok settled keys' =>
      refine .ok settled ?_
      rw [keys', keys, List.map_append, List.append_assoc]
  | error nodup =>
      refine .error ?_
      rwa [List.map_append, ← List.append_assoc, ← keys]

end Discovery

/-- What a task starts from. -/
def Task.Ready (d : Discovery) : Task → Prop
  | .file path _ => d.Settled [path]
  | .directives path _ _ _ => d.Settled [] ∧ path ∈ d.keys

theorem Walks.settles {fetcher : Option Fetcher} {level : Nat} {task : Task} {d : Discovery}
    {w w' : World} {reads : List Read} {result : Except Fault Discovery}
    (walks : Walks fetcher level task d w reads result w') (ready : task.Ready d) :
    d.Settles reads result := by
  induction walks with
  | unread failed => exact .error ready.nodup
  | @read level path name d w w' lines reads result read inside ih =>
      have member : path ∈ (d.addSource path (lex name lines)).keys := by simp
      have settles := ih ⟨ready.addSource _, member⟩
      have keys : (d.addSource path (lex name lines)).keys =
          d.keys ++ [(⟨level, path, name, w.store⟩ : Read)].map Read.path := Discovery.keys_addSource _
      exact settles.after keys
  | nil => exact .ok ready.1 (by simp)
  | text text later ih => exact ih ready
  | atEnd isInclude => exact .error ready.1.nodup
  | unresolved isInclude failed => exact .error ready.1.nodup
  | @known level path name found called index a target rest d w w₁ w' reads result isInclude resolved
      known later ih =>
      have keys : (d.addInclude path index found).keys = d.keys ++ [].map Read.path := by simp
      have settles := ih ⟨ready.1.addInclude_known index known, by simpa using ready.2⟩
      exact settles.after keys
  | @failed level path name found called index a target rest d w w₁ w' reads fault isInclude resolved
      new below ih =>
      have keys : (d.addInclude path index found).keys = d.keys ++ [].map Read.path := by simp
      have settles := ih (ready.1.addInclude_new index new)
      exact settles.after keys
  | @entered level path name found called index a target rest d d' w w₁ w₂ w' reads reads' result
      isInclude resolved new below later ihBelow ihLater =>
      have inside := ihBelow (ready.1.addInclude_new index new)
      cases inside with
      | ok settled keys =>
          rw [Discovery.keys_addInclude] at keys
          have member : path ∈ d'.keys := by
            rw [keys]
            exact List.mem_append_left _ ready.2
          exact (ihLater ⟨settled, member⟩).after keys

def Path.IsCanonical (path : String) : Prop := isAbsolute path = true ∧ clean path = path

/-- The fetcher gives canonical paths only. -/
def Fetcher.IsCanonical (fetch : Fetcher) : Prop :=
  ∀ text w path w', (fetch text).run w = (.ok path, w') → Path.IsCanonical path

section Resolve

variable {fetcher : Option Fetcher} {path found called : String} {w w' : World}

/-- A directive leads to what a fetch gives, or to a file that is there. -/
theorem resolveTarget_eq_ok {target : String}
    (resolved : (resolveTarget fetcher path target).run w = (.ok (found, called), w')) :
    (Reference.looksRemote target = true ∧ called = target ∧
        ∃ fetch ∈ fetcher, (fetch target).run w = (.ok found, w')) ∨
      (Reference.looksRemote target = false ∧ called = found ∧ found = includedPath path target ∧
        w' = w) := by
  unfold resolveTarget at resolved
  dsimp only at resolved
  by_cases empty : target = ""
  · rw [if_pos empty] at resolved
    cases resolved
  rw [if_neg empty] at resolved
  by_cases remote : Reference.looksRemote target = true
  · rw [if_pos remote] at resolved
    cases fetcher with
    | none => cases resolved
    | some fetch =>
        dsimp only at resolved
        rcases ran : (fetch target).run w with ⟨fault | given, w₁⟩
        · have failed : (Action.within ("fetching " ++ target) (fetch target)).run w =
            (.error (.wrap ("fetching " ++ target) fault), w₁) := run_tryCatch_error ran
          rw [run_bind_error failed] at resolved
          cases resolved
        · have fetched : (Action.within ("fetching " ++ target) (fetch target)).run w =
            (.ok given, w₁) := run_tryCatch_ok ran
          rw [run_bind_ok fetched] at resolved
          cases resolved
          exact Or.inl ⟨remote, rfl, fetch, rfl, ran⟩
  · rw [if_neg remote] at resolved
    have stored : Action.store.run w = (.ok w.store, w) := rfl
    rw [run_bind_ok stored] at resolved
    split at resolved
    · cases resolved
    · cases resolved
    · cases resolved
      exact Or.inr ⟨by simpa using remote, rfl, rfl, rfl⟩

theorem resolveDirective_eq_ok {index : Nat} {target : Atom}
    (resolved : (resolveDirective fetcher path index target).run w = (.ok (found, called), w')) :
    (resolveTarget fetcher path (unquoted target.text)).run w = (.ok (found, called), w') := by
  rcases ran : (resolveTarget fetcher path (unquoted target.text)).run w with ⟨fault | given, w₁⟩
  · rw [resolveDirective, run_tryCatch_error ran] at resolved
    cases resolved
  · rw [resolveDirective, run_tryCatch_ok ran] at resolved
    exact resolved

theorem isCanonical_includedPath (absolute : Path.isAbsolute path = true) (target : String) :
    Path.IsCanonical (includedPath path target) :=
  ⟨Path.isAbsolute_clean (isAbsolute_targetPath absolute target),
    Path.clean_clean (isAbsolute_targetPath absolute target)⟩

theorem isCanonical_of_resolve {index : Nat} {target : Atom}
    (canonical : ∀ fetch ∈ fetcher, Fetcher.IsCanonical fetch)
    (absolute : Path.isAbsolute path = true)
    (resolved : (resolveDirective fetcher path index target).run w = (.ok (found, called), w')) :
    Path.IsCanonical found := by
  rcases resolveTarget_eq_ok (resolveDirective_eq_ok resolved) with
    ⟨-, -, fetch, given, ran⟩ | ⟨-, -, meant, -⟩
  · exact canonical fetch given _ _ _ _ ran
  · rw [meant]
    exact isCanonical_includedPath absolute _

end Resolve

def Task.path : Task → String
  | .file path _ => path
  | .directives path _ _ _ => path

theorem Walks.isCanonical {fetcher : Option Fetcher} {level : Nat} {task : Task} {d : Discovery}
    {w w' : World} {reads : List Read} {result : Except Fault Discovery}
    (walks : Walks fetcher level task d w reads result w')
    (canonical : ∀ fetch ∈ fetcher, Fetcher.IsCanonical fetch)
    (start : Path.IsCanonical task.path) : ∀ r ∈ reads, Path.IsCanonical r.path := by
  induction walks with
  | unread failed => exact List.forall_mem_singleton.mpr start
  | read read inside ih => exact List.forall_mem_cons.mpr ⟨start, ih start⟩
  | nil => simp
  | text text later ih => exact ih start
  | atEnd isInclude => simp
  | unresolved isInclude failed => simp
  | known isInclude resolved known later ih => exact ih start
  | failed isInclude resolved new below ih =>
      exact ih (isCanonical_of_resolve canonical start.1 resolved)
  | entered isInclude resolved new below later ihBelow ihLater =>
      exact List.forall_mem_append.mpr
        ⟨ihBelow (isCanonical_of_resolve canonical start.1 resolved), ihLater start⟩

section Run

variable {fetcher : Option Fetcher} {enter : String → String → Discovery → Action Discovery}
  {path name found called : String} {index : Nat} {a target : Atom} {rest : List Atom}
  {d : Discovery} {w w₁ : World}

theorem run_followIncludes_atEnd (isInclude : a.isInclude = true) :
    (followIncludes fetcher enter path name index [a] d).run w = (.error (endFault a index), w) := by
  rw [followIncludes.eq_def]
  simp only [isInclude, Bool.not_true, Bool.false_eq_true, if_false]
  rfl

theorem run_followIncludes_unresolved {fault : Fault} (isInclude : a.isInclude = true)
    (failed : (resolveDirective fetcher path index target).run w = (.error fault, w₁)) :
    (followIncludes fetcher enter path name index (a :: target :: rest) d).run w =
      (.error fault, w₁) := by
  rw [followIncludes.eq_def]
  simp only [isInclude, Bool.not_true, Bool.false_eq_true, if_false]
  exact run_bind_error failed

theorem run_followIncludes_resolved (isInclude : a.isInclude = true)
    (resolved : (resolveDirective fetcher path index target).run w = (.ok (found, called), w₁)) :
    (followIncludes fetcher enter path name index (a :: target :: rest) d).run w =
      ((if d.graph.contains found = true then pure (d.addInclude path index found)
        else enter found called (d.addInclude path index found)) >>=
        followIncludes fetcher enter path name (index + 1) (target :: rest)).run
          (w₁.told (.included name called)) := by
  have told : (Action.tell (.included name called)).run w₁ =
    (.ok (), w₁.told (.included name called)) := rfl
  rw [followIncludes.eq_def]
  simp only [isInclude, Bool.not_true, Bool.false_eq_true, if_false]
  rw [run_bind_ok resolved]
  dsimp only
  rw [run_bind_ok told]
  split
  · rfl
  · rfl

theorem run_discover_unread (depth : Nat) {fault : Fault}
    (failed : w.store.readLines path = .error fault) :
    (discover fetcher (depth + 1) path name d).run w =
      (.error (unreadableFault name fault), w) := by
  have stored : Action.store.run w = (.ok w.store, w) := rfl
  rw [discover, run_bind_ok stored, failed]
  rfl

theorem run_discover_read (depth : Nat) {lines : List Bytes}
    (read : w.store.readLines path = .ok lines) :
    (discover fetcher (depth + 1) path name d).run w =
      (followIncludes fetcher (discover fetcher depth) path name 0 (lex name lines)
        (d.addSource path (lex name lines))).run w := by
  have stored : Action.store.run w = (.ok w.store, w) := rfl
  rw [discover, run_bind_ok stored, read]
  rfl

end Run

theorem Read.Succeeds.isShort {r : Read} (succeeds : r.Succeeds) :
    r.path ≠ "" ∧ r.path.utf8ByteSize < pathLimit := by
  obtain ⟨lines, read⟩ := succeeds
  refine ⟨?_, Store.size_lt_of_readLines read⟩
  intro empty
  rw [empty] at read
  cases read

/-- The paths of the files that were read are such that there are only so many of them. -/
def Discovery.IsShort (d : Discovery) : Prop :=
  ∀ key ∈ d.keys, key ≠ "" ∧ key.utf8ByteSize < pathLimit

/-- Whatever was read, a level is left: the empty path is short too, and no file has it. -/
theorem Discovery.Settled.length_lt {pending : List String} {d : Discovery}
    (settled : d.Settled pending) (short : d.IsShort) : d.keys.length < depthLimit := by
  have nodup : ("" :: d.keys).Nodup := by
    refine List.nodup_cons.mpr ⟨fun member => (short "" member).1 rfl, ?_⟩
    exact (List.nodup_append.mp settled.nodup).1
  unfold Discovery.IsShort at short
  unfold depthLimit
  have positive : 0 < pathLimit := by decide
  generalize pathLimit = limit at short positive ⊢
  refine Store.length_le_pow nodup fun key member => ?_
  rcases List.mem_cons.mp member with empty | inside
  · rw [empty]
    exact positive
  · exact (short key inside).2

/-- Reading a file with this many levels left is a walk. -/
def Covers (fetcher : Option Fetcher) (depth : Nat) : Prop :=
  ∀ level path name d w, d.Settled [path] → d.IsShort → depthLimit ≤ depth + d.keys.length →
    ∃ reads, Walks fetcher level (.file path name) d w reads
      ((discover fetcher depth path name d).run w).1 ((discover fetcher depth path name d).run w).2

theorem Covers.directives {fetcher : Option Fetcher} {depth : Nat} (covers : Covers fetcher depth)
    (level : Nat) (path name : String) (index : Nat) (atoms : List Atom) {d : Discovery} (w : World)
    (settled : d.Settled []) (member : path ∈ d.keys) (short : d.IsShort)
    (deep : depthLimit ≤ depth + d.keys.length) :
    ∃ reads, Walks fetcher level (.directives path name index atoms) d w reads
      ((followIncludes fetcher (discover fetcher depth) path name index atoms d).run w).1
      ((followIncludes fetcher (discover fetcher depth) path name index atoms d).run w).2 := by
  induction atoms generalizing index d w with
  | nil => exact ⟨[], .nil⟩
  | cons a rest ih =>
      by_cases text : a.isInclude = false
      · obtain ⟨reads, later⟩ := ih (index + 1) w settled member short deep
        rw [followIncludes_text fetcher name index text]
        exact ⟨reads, .text text later⟩
      have isInclude : a.isInclude = true := by simpa using text
      cases rest with
      | nil =>
          rw [run_followIncludes_atEnd isInclude]
          exact ⟨[], .atEnd isInclude⟩
      | cons target rest =>
          rcases ran : (resolveDirective fetcher path index target).run w with
            ⟨fault | ⟨found, called⟩, w₁⟩
          · rw [run_followIncludes_unresolved isInclude ran]
            exact ⟨[], .unresolved isInclude ran⟩
          rw [run_followIncludes_resolved isInclude ran]
          have keys : (d.addInclude path index found).keys = d.keys := Discovery.keys_addInclude ..
          have member₁ : path ∈ (d.addInclude path index found).keys := by
            rw [keys]
            exact member
          have short₁ : (d.addInclude path index found).IsShort := by
            rw [Discovery.IsShort, keys]
            exact short
          have deep₁ : depthLimit ≤ depth + (d.addInclude path index found).keys.length := by
            rw [keys]
            exact deep
          cases known : d.graph.contains found with
          | true =>
              obtain ⟨reads, later⟩ := ih (index + 1) (w₁.told (.included name called))
                (settled.addInclude_known index known) member₁ short₁ deep₁
              exact ⟨reads, .known isInclude ran known later⟩
          | false =>
              have settled₁ : (d.addInclude path index found).Settled [found] :=
                settled.addInclude_new index known
              obtain ⟨reads, below⟩ := covers (level + 1) found called _
                (w₁.told (.included name called)) settled₁ short₁ deep₁
              simp only [Bool.false_eq_true, if_false]
              rcases ran' : (discover fetcher depth found called (d.addInclude path index found)).run
                (w₁.told (.included name called)) with ⟨fault | d', w₂⟩
              · rw [ran'] at below
                rw [run_bind_error ran']
                exact ⟨reads, .failed isInclude ran known below⟩
              rw [ran'] at below
              rw [run_bind_ok ran']
              cases below.settles settled₁ with
              | ok settled₂ keys₂ =>
                  rw [keys] at keys₂
                  have more : d.keys.length ≤ d'.keys.length := by
                    rw [keys₂, List.length_append]
                    exact Nat.le_add_right _ _
                  have member₂ : path ∈ d'.keys := by
                    rw [keys₂]
                    exact List.mem_append_left _ member
                  have deep₂ : depthLimit ≤ depth + d'.keys.length :=
                    deep.trans (Nat.add_le_add_left more depth)
                  have short₂ : d'.IsShort := by
                    intro key inside
                    rw [keys₂] at inside
                    rcases List.mem_append.mp inside with before | read
                    · exact short key before
                    · obtain ⟨r, looked, rfl⟩ := List.mem_map.mp read
                      exact (below.succeeds.2 _ rfl r looked).isShort
                  obtain ⟨reads', later⟩ := ih (index + 1) w₂ settled₂ member₂ short₂ deep₂
                  exact ⟨reads ++ reads', .entered isInclude ran known below later⟩

theorem discover_covers (fetcher : Option Fetcher) (depth : Nat) : Covers fetcher depth := by
  induction depth with
  | zero =>
      intro level path name d w settled short deep
      rw [Nat.zero_add] at deep
      exact absurd (settled.length_lt short) (Nat.not_lt.mpr deep)
  | succ depth ih =>
      intro level path name d w settled short deep
      cases read : w.store.readLines path with
      | error fault =>
          rw [run_discover_unread depth read]
          exact ⟨_, .unread read⟩
      | ok lines =>
          rw [run_discover_read depth read]
          have keys : (d.addSource path (lex name lines)).keys = d.keys ++ [path] :=
            Discovery.keys_addSource _
          have here : (⟨level, path, name, w.store⟩ : Read).Succeeds := ⟨lines, read⟩
          have short' : (d.addSource path (lex name lines)).IsShort := by
            intro key inside
            rw [keys] at inside
            rcases List.mem_append.mp inside with before | last
            · exact short key before
            · rw [List.mem_singleton.mp last]
              exact here.isShort
          have deep' : depthLimit ≤ depth + (d.addSource path (lex name lines)).keys.length := by
            rw [keys, List.length_append, List.length_singleton, ← Nat.add_assoc, Nat.add_right_comm]
            exact deep
          obtain ⟨reads, inside⟩ := ih.directives level path name 0 (lex name lines) w
            (settled.addSource _) (by rw [keys]; exact List.mem_append_right _ List.mem_cons_self)
            short' deep'
          exact ⟨_, .read read inside⟩

end DawnC
