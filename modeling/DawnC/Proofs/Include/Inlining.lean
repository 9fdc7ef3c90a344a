import DawnC.Proofs.Attempt
import DawnC.Proofs.Include.Cycles
import DawnC.Proofs.Include.Outcome

set_option autoImplicit false

namespace DawnC

variable {s : Store} {root : String}

/-- The last atom so far is of a file that is present, and if it is of `path`, then of a statement
before `stmt`. -/
structure Precedes (s : Store) (root path : String) (stmt : Int) (present : List String)
    (previous : Option (String × Int)) : Prop where
  past : Past (s.label root path) stmt previous
  known : ∀ key ∈ previous, ∃ x ∈ present, key.1 = s.label root x

/-- The atoms added for lines of `path` show what the lines of `flat` show. The last of them is of
`path` or of a file that was not present before. -/
structure Shows (s : Store) (root path : String) (stmt stmt' : Int)
    (present present' : List String) (flat : List Bytes) (added : List Atom) : Prop where
  more : present ⊆ present'
  shown : ∀ previous, Precedes s root path stmt present previous →
    seen Atom.key previous added = flat.flatMap lineSeen
  precedes : ∀ previous, Precedes s root path stmt present previous →
    Precedes s root path stmt' present' (lastKey Atom.key previous added)
  last : ∀ previous, Precedes s root path stmt present previous →
    lastKey Atom.key previous added = previous ∨
      ∀ key ∈ lastKey Atom.key previous added,
        ∃ x ∈ present', (x = path ∨ x ∉ present) ∧ key.1 = s.label root x

theorem Past.mono {file : String} {stmt stmt' : Int} {previous : Option (String × Int)}
    (past : Past file stmt previous) (later : stmt ≤ stmt') : Past file stmt' previous :=
  fun key member named => Int.lt_of_lt_of_le (past key member named) later

namespace Shows

variable {path : String} {stmt stmt' stmt'' : Int} {present present' present'' : List String}
  {flat flat' : List Bytes} {added added' : List Atom}

theorem nothing (present : List String) (later : stmt ≤ stmt') :
    Shows s root path stmt stmt' present present [] [] :=
  ⟨List.Subset.refl _, fun _ _ => rfl, fun _ before => ⟨before.past.mono later, before.known⟩,
    fun _ _ => Or.inl rfl⟩

theorem line (member : path ∈ present) (line stmt : Int) (bytes : Bytes) :
    Shows s root path stmt (stmt + (scanned bytes).stmt) present present [bytes]
      ((atomsOf bytes).map (Atom.moved (s.label root path) line stmt)) := by
  have last (previous : Option (String × Int)) :=
    lastKey_line (s.label root path) line stmt previous bytes
  refine ⟨List.Subset.refl _, fun previous before => ?_, fun previous before => ?_,
    fun previous before => ?_⟩
  · rw [seen_line before.past, List.flatMap_singleton]
  · refine ⟨before.past.line line bytes, ?_⟩
    rcases last previous with same | ⟨n, found, -⟩
    · rw [same]
      exact before.known
    · rw [found]
      rintro key ⟨⟩
      exact ⟨path, member, rfl⟩
  · refine (last previous).imp id ?_
    rintro ⟨n, found, -⟩
    rw [found]
    rintro key ⟨⟩
    exact ⟨path, member, Or.inl rfl, rfl⟩

theorem trans (first : Shows s root path stmt stmt' present present' flat added)
    (second : Shows s root path stmt' stmt'' present' present'' flat' added') :
    Shows s root path stmt stmt'' present present'' (flat ++ flat') (added ++ added') := by
  refine ⟨List.Subset.trans first.more second.more, fun previous before => ?_,
    fun previous before => ?_, fun previous before => ?_⟩
  · rw [seen_append, first.shown previous before, second.shown _ (first.precedes previous before),
      List.flatMap_append]
  · rw [lastKey_append]
    exact second.precedes _ (first.precedes previous before)
  · rw [lastKey_append]
    rcases second.last _ (first.precedes previous before) with same | new
    · rw [same]
      refine (first.last previous before).imp id fun new key inside => ?_
      obtain ⟨x, here, fresh, named⟩ := new key inside
      exact ⟨x, second.more here, fresh, named⟩
    · refine Or.inr fun key inside => ?_
      obtain ⟨x, here, fresh, named⟩ := new key inside
      exact ⟨x, here, fresh.imp id fun absent old => absent (first.more old), named⟩

/-- The lines of a file that was not present before, in place of a directive. -/
theorem directive {target : String} {last : Int} (member : path ∈ present) (new : target ∉ present)
    (reached : ∀ x ∈ present', s.Reaches root x) (later : stmt ≤ stmt')
    (inside : Shows s root target 0 last (target :: present) present' flat added) :
    Shows s root path stmt stmt' present present' flat added := by
  have more : present ⊆ present' := fun x old => inside.more (List.mem_cons_of_mem _ old)
  have enters (previous : Option (String × Int))
      (before : Precedes s root path stmt present previous) :
      Precedes s root target 0 (target :: present) previous := by
    refine ⟨fun key last named => ?_, fun key last => ?_⟩
    · obtain ⟨x, old, label⟩ := before.known key last
      have same : x = target :=
        Store.label_injective (reached x (more old))
          (reached target (inside.more List.mem_cons_self))
          (label.symm.trans named)
      exact absurd (same ▸ old) new
    · obtain ⟨x, old, label⟩ := before.known key last
      exact ⟨x, List.mem_cons_of_mem _ old, label⟩
  -- An atom of a file that was not present before is of another file than `path`.
  have last (previous : Option (String × Int))
      (before : Precedes s root path stmt present previous) :
      lastKey Atom.key previous added = previous ∨
        ∀ key ∈ lastKey Atom.key previous added,
          ∃ x ∈ present', x ∉ present ∧ key.1 = s.label root x := by
    refine (inside.last previous (enters previous before)).imp id fun fresh key last => ?_
    obtain ⟨x, here, which, named⟩ := fresh key last
    refine ⟨x, here, ?_, named⟩
    rcases which with rfl | absent
    · exact new
    · exact fun old => absent (List.mem_cons_of_mem _ old)
  refine ⟨more, fun previous before => inside.shown previous (enters previous before),
    fun previous before => ?_, fun previous before => ?_⟩
  · refine ⟨?_, (inside.precedes previous (enters previous before)).known⟩
    rcases last previous before with same | fresh
    · rw [same]
      exact before.past.mono later
    · intro key inside named
      obtain ⟨x, here, absent, label⟩ := fresh key inside
      have same : x = path :=
        Store.label_injective (reached x here) (reached path (more member))
          (label.symm.trans named)
      exact absurd (same ▸ member) absent
  · refine (last previous before).imp id fun fresh key inside => ?_
    obtain ⟨x, here, absent, label⟩ := fresh key inside
    exact ⟨x, here, Or.inr absent, label⟩

end Shows

theorem lookup_between {earlier later : List (Nat × String)} {index next i : Nat}
    (passed : ∀ e ∈ earlier, e.1 < index) (ahead : ∀ e ∈ later, next ≤ e.1) (low : index ≤ i)
    (high : i < next) : (earlier ++ later).lookup i = none := by
  rw [lookup_none_iff_not_mem, List.mem_map]
  rintro ⟨e, inside, rfl⟩
  rcases List.mem_append.mp inside with before | after
  · have bound := passed e before
    omega
  · have bound := ahead e after
    omega

theorem lookup_here {earlier : List (Nat × String)} {index : Nat}
    (passed : ∀ e ∈ earlier, e.1 < index) (target : String) (later : List (Nat × String)) :
    (earlier ++ (index, target) :: later).lookup index = some target := by
  have before : earlier.lookup index = none := by
    rw [lookup_none_iff_not_mem, List.mem_map]
    rintro ⟨e, inside, rfl⟩
    exact Nat.lt_irrefl _ (passed e inside)
  simp [List.lookup_append, before]

theorem index_le_of_mem {path : String} {index : Nat} {lines : List Bytes} {e : Nat × String}
    (member : e ∈ includesFrom path index lines) : index ≤ e.1 := by
  induction lines generalizing index with
  | nil => cases member
  | cons first rest ih =>
      rcases List.mem_append.mp member with here | later
      · obtain ⟨target, -, rfl⟩ := List.mem_map.mp here
        exact Nat.le_refl _
      · have further := ih later
        omega

section Atoms

variable {includes : List (Nat × String)} {enter : String → Splice → Splice}

theorem spliceAtoms_append {index : Nat} {atoms : List Atom}
    (nothing : ∀ i, index ≤ i → i < index + atoms.length → includes.lookup i = none)
    (rest : List Atom) (sp : Splice) :
    spliceAtoms includes enter index (atoms ++ rest) sp =
      spliceAtoms includes enter (index + atoms.length) rest
        { sp with atoms := atoms.reverse ++ sp.atoms } := by
  induction atoms generalizing index sp with
  | nil => rfl
  | cons a more ih =>
      have here : includes.lookup index = none := nothing index (Nat.le_refl _) (by simp)
      rw [List.cons_append, spliceAtoms.eq_def]
      simp only [here]
      rw [ih fun i low high => nothing i (by omega) (by rw [List.length_cons]; omega)]
      simp [Nat.add_assoc, Nat.add_comm 1]

/-- A directive and its path are replaced. -/
theorem spliceAtoms_directive {index : Nat} {target : String}
    (included : includes.lookup index = some target) (keyword quoted : Atom) (rest : List Atom)
    (sp : Splice) :
    spliceAtoms includes enter index (keyword :: quoted :: rest) sp =
      spliceAtoms includes enter (index + 2) rest
        (if target ∈ sp.inlined then sp
          else enter target { sp with inlined := target :: sp.inlined }) := by
  rw [spliceAtoms.eq_def]
  simp only [included]

end Atoms

/-- The files that are present, each once, are files of the program. -/
structure Fits (d : Discovery) (present : List String) : Prop where
  nodup : present.Nodup
  known : present ⊆ d.keys

/-- Lines of `path` are added with their includes written out. -/
def Inlines (s : Store) (root : String) (d : Discovery) (path : String) (lines : List Bytes)
    (stmt : Int) (before after : Splice) : Prop :=
  ∃ flat added last, after.atoms = added.reverse ++ before.atoms ∧
    s.Flattens path lines before.inlined flat after.inlined ∧
    Shows s root path stmt last before.inlined after.inlined flat added ∧ Fits d after.inlined

/-- What adding a file with this many levels left does. -/
def Splices (s : Store) (root : String) (d : Discovery) (depth : Nat)
    (enter : String → Splice → Splice) : Prop :=
  ∀ path ∈ d.keys, ∀ lines, s.readLines path = .ok lines → ∀ sp : Splice, path ∈ sp.inlined →
    Fits d sp.inlined → d.keys.length < depth + sp.inlined.length →
      Inlines s root d path lines 0 sp (enter path sp)

section Run

variable {d : Discovery} {enter : String → Splice → Splice} {depth : Nat} {path : String}

namespace Inlines

variable {first : Bytes} {rest : List Bytes} {stmt : Int} {sp middle after : Splice}

theorem text (member : path ∈ sp.inlined) (plain : directive? first = none) (line : Int)
    (later : Inlines s root d path rest (stmt + (scanned first).stmt)
      { sp with
        atoms := ((atomsOf first).map (Atom.moved (s.label root path) line stmt)).reverse ++ sp.atoms }
      after) :
    Inlines s root d path (first :: rest) stmt sp after := by
  obtain ⟨flat, added, last, atoms, flattens, shown, fits⟩ := later
  refine ⟨[first] ++ flat, (atomsOf first).map (Atom.moved (s.label root path) line stmt) ++ added,
    last, ?_, .text plain flattens, (Shows.line member line stmt first).trans shown, fits⟩
  rw [atoms, List.reverse_append, List.append_assoc]

theorem again {target : String} (directive : directive? first = some target)
    (old : includedPath path target ∈ sp.inlined) {stmt' : Int} (forward : stmt ≤ stmt')
    (later : Inlines s root d path rest stmt' sp after) :
    Inlines s root d path (first :: rest) stmt sp after := by
  obtain ⟨flat, added, last, atoms, flattens, shown, fits⟩ := later
  exact ⟨flat, added, last, atoms, .again directive rfl old flattens,
    (Shows.nothing sp.inlined forward).trans shown, fits⟩

theorem new {target : String} (found : Discovered s root d) (member : path ∈ sp.inlined)
    (directive : directive? first = some target) (absent : includedPath path target ∉ sp.inlined)
    {inner : List Bytes} (read : s.readLines (includedPath path target) = .ok inner)
    (inside : Inlines s root d (includedPath path target) inner 0
      { sp with inlined := includedPath path target :: sp.inlined } middle)
    {stmt' : Int} (forward : stmt ≤ stmt') (later : Inlines s root d path rest stmt' middle after) :
    Inlines s root d path (first :: rest) stmt sp after := by
  obtain ⟨flat, added, last, atoms, flattens, shown, fits⟩ := inside
  obtain ⟨flat', added', last', atoms', flattens', shown', fits'⟩ := later
  have reached : ∀ x ∈ middle.inlined, s.Reaches root x :=
    fun x here => (found.keys x).mp (fits.known here)
  refine ⟨flat ++ flat', added ++ added', last', ?_,
    .first directive rfl absent read flattens flattens',
    (Shows.directive member absent reached forward shown).trans shown', fits'⟩
  rw [atoms', atoms, List.reverse_append, List.append_assoc]

theorem more {lines : List Bytes} (inlines : Inlines s root d path lines stmt sp after) :
    sp.inlined ⊆ after.inlined := by
  obtain ⟨_, _, _, _, _, shown, _⟩ := inlines
  exact shown.more

theorem fits {lines : List Bytes} (inlines : Inlines s root d path lines stmt sp after) :
    Fits d after.inlined := by
  obtain ⟨_, _, _, _, _, _, fits⟩ := inlines
  exact fits

end Inlines

/-- The lines of a file are added one after another. -/
theorem spliceAtoms_inlines (found : Discovered s root d) (splices : Splices s root d depth enter)
    {lines : List Bytes}
    (known : ∀ line ∈ lines, ∀ target, directive? line = some target →
      includedPath path target ∈ d.keys)
    (index : Nat) (earlier : List (Nat × String)) (passed : ∀ e ∈ earlier, e.1 < index)
    (line stmt : Int) (sp : Splice) (member : path ∈ sp.inlined) (fits : Fits d sp.inlined)
    (deep : d.keys.length < depth + 1 + sp.inlined.length) :
    Inlines s root d path lines stmt sp
      (spliceAtoms (earlier ++ includesFrom path index lines) enter index
        (atomsFrom (s.label root path) line stmt lines) sp) := by
  induction lines generalizing index earlier line stmt sp with
  | nil => exact ⟨[], [], stmt, rfl, .nil, .nothing _ (Int.le_refl _), fits⟩
  | cons first rest ih =>
      have known_rest : ∀ line ∈ rest, ∀ target, directive? line = some target →
          includedPath path target ∈ d.keys :=
        fun line inside => known line (List.mem_cons_of_mem _ inside)
      have forward : stmt ≤ stmt + (scanned first).stmt := by
        have positive := scanned_stmt first
        omega
      rw [atomsFrom, includesFrom]
      cases directive : directive? first with
      | none =>
          have absent (i : Nat) := lookup_between (i := i) passed
            fun e (inside : e ∈ includesFrom path (index + (atomsOf first).length) rest) =>
              index_le_of_mem inside
          rw [Option.toList_none, List.map_nil, List.nil_append,
            spliceAtoms_append (by rwa [List.length_map]), List.length_map]
          exact .text member directive line (ih known_rest _ earlier
            (fun e before => Nat.lt_of_lt_of_le (passed e before) (Nat.le_add_right _ _)) _ _ _
            member fits deep)
      | some target =>
          obtain ⟨keyword, quoted, atoms, -⟩ := atomsOf_directive directive
          have here := known first List.mem_cons_self target directive
          have included := lookup_here passed (includedPath path target)
            (includesFrom path (index + 2) rest)
          have passed' : ∀ e ∈ earlier ++ [(index, includedPath path target)], e.1 < index + 2 := by
            intro e inside
            rcases List.mem_append.mp inside with before | last
            · have bound := passed e before
              omega
            · rw [List.mem_singleton.mp last]
              exact Nat.lt_add_of_pos_right (by decide)
          have next := ih known_rest (index + 2) _ passed' (line + (scanned first).line)
            (stmt + (scanned first).stmt)
          rw [List.append_assoc] at next
          rw [atoms]
          simp only [Option.toList_some, List.map_cons, List.map_nil, List.cons_append,
            List.nil_append, List.length_cons, List.length_nil] at next ⊢
          rw [spliceAtoms_directive included]
          by_cases old : includedPath path target ∈ sp.inlined
          · rw [if_pos old]
            exact .again directive old forward (next sp member fits deep)
          · rw [if_neg old]
            obtain ⟨inner, read, -⟩ := found.records _ here
            have fits' : Fits d (includedPath path target :: sp.inlined) :=
              ⟨List.nodup_cons.mpr ⟨old, fits.nodup⟩, List.cons_subset.mpr ⟨here, fits.known⟩⟩
            have inside := splices _ here inner read
              { sp with inlined := includedPath path target :: sp.inlined } List.mem_cons_self fits'
              (by rw [List.length_cons]; omega)
            have more := inside.more
            have longer := (fits'.nodup.subperm more).length_le
            rw [List.length_cons] at longer
            exact .new found member directive old read inside forward
              (next _ (more (List.mem_cons_of_mem _ member)) inside.fits (by omega))

/-- A file is added with all that it includes: no file is entered twice, so a level is left. -/
theorem spliceFile_splices (found : Discovered s root d) (depth : Nat) :
    Splices s root d depth (spliceFile d.sources depth) := by
  induction depth with
  | zero =>
      intro path _ lines _ sp _ fits deep
      have bound := (fits.nodup.subperm fits.known).length_le
      omega
  | succ depth ih =>
      intro path known lines read sp member fits deep
      obtain ⟨lines', read', entry⟩ := found.records path known
      cases read.symm.trans read'
      have source : d.sources.lookup path =
          some ⟨lex (s.label root path) lines, includesFrom path 0 lines⟩ := congrArg Prod.fst entry
      have includes : ∀ line ∈ lines, ∀ target, directive? line = some target →
          includedPath path target ∈ d.keys := by
        intro line inside target directive
        rw [found.keys]
        exact ((found.keys path).mp known).tail ⟨lines, read, line, inside, target, directive, rfl⟩
      rw [spliceFile]
      simp only [source]
      rw [lex_eq]
      exact spliceAtoms_inlines found ih includes 0 [] (by simp) 0 0 sp member fits deep

end Run

/-- The atoms of a program are those of its flat text, as far as the translation sees them. -/
theorem splice_alike {d : Discovery} (found : Discovered s root d) :
    ∃ flat, s.Flattened root flat ∧
      Alike (renumber (splice d.sources (s.rootPath root))) (lex root flat) := by
  have known : s.rootPath root ∈ d.keys := (found.keys _).mpr .refl
  obtain ⟨lines, read, -⟩ := found.records _ known
  have fits : Fits d [s.rootPath root] := ⟨List.nodup_singleton _, by simpa using known⟩
  have enough : d.keys.length < d.sources.length + 1 + [s.rootPath root].length := by
    simp only [Discovery.keys, List.length_map, List.length_singleton]
    omega
  obtain ⟨flat, added, last, atoms, flattens, shown, -⟩ :=
    spliceFile_splices found (d.sources.length + 1) _ known lines read ⟨[], [s.rootPath root]⟩
      List.mem_cons_self fits enough
  refine ⟨flat, ⟨lines, _, read, flattens⟩, ?_⟩
  have start : Precedes s root (s.rootPath root) 0 [s.rootPath root] none :=
    ⟨fun key absent => absurd absent (by simp), fun key absent => absurd absent (by simp)⟩
  have same : seen Atom.stmt none (renumber (splice d.sources (s.rootPath root))) =
      seen Atom.stmt none (lex root flat) := by
    rw [seen_renumber, seen_lex, splice, atoms, List.append_nil, List.reverse_reverse]
    exact shown.shown none start
  exact .of_seen same

section Load

variable {fetcher : Option Fetcher} {d : Discovery} (program : s.IsProgram root)
  (found : Gives s (discover fetcher depthLimit (s.rootPath root) root { graph := .ofRoot (s.rootPath root) }) d)

include program found

/-- What is done with a program once its files are found. -/
theorem run_load (events : List Event) :
    ∃ events', (load fetcher root).run ⟨s, events⟩ = (match d.graph.cycle? with
      | some cycle => throw (Fault.inPhase .inclusion (.cycle cycle))
      | none => do
        let atoms := renumber (splice d.sources (s.rootPath root))
        Action.tell (.includesResolved root d.graph.size atoms.length)
        pure atoms : Action (List Atom)).run ⟨s, events'⟩ := by
  obtain ⟨events', ran⟩ := found events
  have stored : Action.store.run ⟨s, events⟩ = (.ok s, ⟨s, events⟩) := rfl
  have placed : s.absolute root = .ok (s.rootPath root) := by
    rw [Store.absolute, if_pos program.located, Store.rootPath]
  have entered : (Action.inPhase .read (Action.ofExcept (s.absolute root))).run ⟨s, events⟩ =
      (.ok (s.rootPath root), ⟨s, events⟩) := by
    rw [placed]
    exact Attempt.run_tryCatch_ok rfl
  refine ⟨events', ?_⟩
  rw [load, Attempt.run_bind_ok stored, program.isFile]
  exact (Attempt.run_bind_ok entered).trans (Attempt.run_bind_ok ran)

/-- A program without a cycle is read: its files are put together. -/
theorem load_gives (acyclic : d.graph.cycle? = none) :
    Gives s (load fetcher root) (renumber (splice d.sources (s.rootPath root))) := by
  intro events
  obtain ⟨events', ran⟩ := run_load program found events
  rw [acyclic] at ran
  exact ⟨_, ran⟩

/-- A program with a cycle is not read, and the cycle is reported. -/
theorem load_cycle {cycle : List String} (reported : d.graph.cycle? = some cycle) (events : List Event) :
    ∃ events', (load fetcher root).run ⟨s, events⟩ =
      (.error (.phase .inclusion "" 0 0 "" (some (.cycle cycle))), ⟨s, events'⟩) := by
  obtain ⟨events', ran⟩ := run_load program found events
  rw [reported] at ran
  exact ⟨_, ran⟩

end Load

/-- Including is writing out, once for each file. Without a cycle, a program comes to the same as its
flat text: the same C, or a failure in the same phase with the same cause. With a cycle it cannot be
read, and a cycle among its files is reported. -/
theorem includes_written_out (fetcher : Option Fetcher) (root : String) (w : World)
    (program : w.store.IsProgram root) :
    (¬ w.store.Cyclic root →
      (∃ flat, w.store.Flattened root flat) ∧
      ∀ flat, w.store.Flattened root flat →
        SameOutcome ((transpileUnit fetcher root).run w).1
          ((transpileWith (pure (lex root flat)) root).run w).1) ∧
    (w.store.Cyclic root → ∃ cycle events,
      (load fetcher root).run w =
        (.error (.phase .inclusion "" 0 0 "" (some (.cycle cycle))), { w with events }) ∧
      IsCycle w.store.Includes (w.store.rootPath root) cycle) := by
  obtain ⟨d, discovered, found⟩ := discover_root program fetcher
  constructor
  · intro acyclic
    obtain ⟨flat, flattened, alike⟩ := splice_alike found
    refine ⟨⟨flat, flattened⟩, fun other flattened' => ?_⟩
    cases flattened.unique flattened'
    have loaded := load_gives program discovered (found.cycle?_eq_none_iff.mpr acyclic)
    have flat_loaded : Gives w.store (pure (lex root flat)) (lex root flat) := .pure _
    rw [transpileUnit, transpileWith_of_load loaded, transpileWith_of_load flat_loaded]
    exact CompilationUnit.conclude_alike alike root
  · intro cyclic
    cases result : d.graph.cycle? with
    | none => exact absurd cyclic (found.cycle?_eq_none_iff.mp result)
    | some cycle =>
        obtain ⟨events, ran⟩ := load_cycle program discovered result w.events
        exact ⟨cycle, events, ran, found.isCycle result⟩

def textFile (lines : List String) : Entry :=
  .file (lines.flatMap fun line => Utf8.encode line ++ [newline]) false

/-- Two files in another directory include a third, which the root names once more from the root of
the tree; one file is empty. -/
def diamond : Store where
  cwd := ["p"]
  entries :=
    [(["p"], .directory), (["p", "lib"], .directory),
      (["p", "main.dawn"], textFile ["include \"lib/a.dawn\";", "#include \"lib/../lib/b.dawn\"",
        "include \"/p/common.dawn\"", "function main() \x7b", "hello();", "\x7d"]),
      (["p", "lib", "a.dawn"], textFile ["include \"../common.dawn\"", "function hello() \x7b",
        "print(\"hi\");", "\x7d"]),
      (["p", "lib", "b.dawn"], textFile ["  include \"../empty.dawn\"",
        "include \"../common.dawn\"", "// no more"]),
      (["p", "common.dawn"], textFile ["function common() \x7b", "\x7d"]),
      (["p", "empty.dawn"], textFile [])]

/-- The shared file stands where it is first named, and the directives are gone. -/
theorem diamond_flattened : diamond.Flattened "main.dawn"
    (["function common() \x7b", "\x7d", "function hello() \x7b", "print(\"hi\");", "\x7d",
      "// no more", "function main() \x7b", "hello();", "\x7d"].map Utf8.encode) := by
  have toA : directive? (Utf8.encode "include \"lib/a.dawn\";") = some "lib/a.dawn" := by
    decide +kernel
  have toB : directive? (Utf8.encode "#include \"lib/../lib/b.dawn\"") = some "lib/../lib/b.dawn" := by
    decide +kernel
  have toCommon : directive? (Utf8.encode "include \"../common.dawn\"") = some "../common.dawn" := by
    decide +kernel
  have toShared : directive? (Utf8.encode "include \"/p/common.dawn\"") = some "/p/common.dawn" := by
    decide +kernel
  have toEmpty : directive? (Utf8.encode "  include \"../empty.dawn\"") = some "../empty.dawn" := by
    decide +kernel
  have common : diamond.Flattens "/p/common.dawn" (["function common() \x7b", "\x7d"].map Utf8.encode)
      ["/p/common.dawn", "/p/lib/a.dawn", "/p/main.dawn"] _ _ :=
    .text (by decide +kernel) (.text (by decide +kernel) .nil)
  have a : diamond.Flattens "/p/lib/a.dawn" (["include \"../common.dawn\"", "function hello() \x7b",
      "print(\"hi\");", "\x7d"].map Utf8.encode) ["/p/lib/a.dawn", "/p/main.dawn"] _ _ :=
    .first toCommon (by decide +kernel) (by decide +kernel) rfl common
      (.text (by decide +kernel) (.text (by decide +kernel) (.text (by decide +kernel) .nil)))
  have empty : diamond.Flattens "/p/empty.dawn" []
      ["/p/empty.dawn", "/p/lib/b.dawn", "/p/common.dawn", "/p/lib/a.dawn", "/p/main.dawn"] _ _ :=
    .nil
  have b : diamond.Flattens "/p/lib/b.dawn" (["  include \"../empty.dawn\"",
      "include \"../common.dawn\"", "// no more"].map Utf8.encode)
      ["/p/lib/b.dawn", "/p/common.dawn", "/p/lib/a.dawn", "/p/main.dawn"] _ _ :=
    .first toEmpty (by decide +kernel) (by decide +kernel) rfl empty
      (.again toCommon rfl (by decide +kernel) (.text (by decide +kernel) .nil))
  have main : diamond.Flattens "/p/main.dawn" (["include \"lib/a.dawn\";",
      "#include \"lib/../lib/b.dawn\"", "include \"/p/common.dawn\"", "function main() \x7b",
      "hello();", "\x7d"].map Utf8.encode) ["/p/main.dawn"] _ _ :=
    .first toA (by decide +kernel) (by decide +kernel) rfl a
      (.first toB (by decide +kernel) (by decide +kernel) rfl b
        (.again toShared rfl (by decide +kernel)
          (.text (by decide +kernel) (.text (by decide +kernel) (.text (by decide +kernel) .nil)))))
  exact ⟨_, _, rfl, main⟩

/-- Below the root, two files include each other. -/
def ring : Store where
  entries :=
    [(["lib"], .directory), (["main.dawn"], textFile ["include \"lib/a.dawn\""]),
      (["lib", "a.dawn"], textFile ["include \"../b.dawn\""]),
      (["b.dawn"], textFile ["int b = 1;", "include \"lib/a.dawn\""])]

theorem includes_written_out_diamond :
    (diamond.IsProgram "main.dawn" ∧ ¬ diamond.Cyclic "main.dawn" ∧
      SameOutcome ((transpileUnit none "main.dawn").run { store := diamond }).1
        ((transpileWith (pure (lex "main.dawn" (["function common() \x7b", "\x7d",
          "function hello() \x7b", "print(\"hi\");", "\x7d", "// no more", "function main() \x7b",
          "hello();", "\x7d"].map Utf8.encode))) "main.dawn").run { store := diamond }).1) ∧
    (ring.IsProgram "main.dawn" ∧ ring.Cyclic "main.dawn" ∧ ∃ cycle events,
      (load none "main.dawn").run { store := ring } =
        (.error (.phase .inclusion "" 0 0 "" (some (.cycle cycle))), { store := ring, events })) := by
  have ordered : diamond.inOrder ["/p/main.dawn", "/p/lib/a.dawn", "/p/lib/b.dawn", "/p/empty.dawn",
      "/p/common.dawn"] = true := by decide +kernel
  have program : diamond.IsProgram "main.dawn" :=
    .of_readsWithin (by decide +kernel) (by decide +kernel) (by decide +kernel) (Store.readsWithin_of_inOrder ordered)
  have acyclic : ¬ diamond.Cyclic "main.dawn" :=
    Store.not_cyclic_of_inOrder ordered (by decide +kernel)
  have closed : ∀ path ∈ ["/main.dawn", "/lib/a.dawn", "/b.dawn"],
      ring.readsWithin ["/main.dawn", "/lib/a.dawn", "/b.dawn"] path = true := by decide +kernel
  have program' : ring.IsProgram "main.dawn" :=
    .of_readsWithin (by decide +kernel) (by decide +kernel) (by decide +kernel) closed
  have back : ring.Includes "/lib/a.dawn" "/b.dawn" := by decide +kernel
  have cyclic : ring.Cyclic "main.dawn" :=
    ⟨"/lib/a.dawn", .single (by decide +kernel),
      .tail (.single back) (by decide +kernel)⟩
  obtain ⟨cycle, events, ran, -⟩ :=
    (includes_written_out none "main.dawn" { store := ring } program').2 cyclic
  exact ⟨⟨program, acyclic,
      ((includes_written_out none "main.dawn" { store := diamond } program).1 acyclic).2 _
        diamond_flattened⟩,
    program', cyclic, cycle, events, ran⟩

end DawnC
