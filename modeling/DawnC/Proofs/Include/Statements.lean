import DawnC.Proofs.Include.Faults
import DawnC.Proofs.Include.Sources
import DawnC.Proofs.Include.Termination
import DawnC.Proofs.Remote.Agreement

set_option autoImplicit false

namespace DawnC

def Atom.unnumbered (a : Atom) : Atom := { a with stmt := 0 }

theorem renumberFrom_cons (stmt : Int) (previous : Option (String × Int)) (a : Atom)
    (rest : List Atom) :
    renumberFrom stmt previous [] (a :: rest) =
      { a with stmt := if previous = some a.key then stmt else stmt + 1 } ::
        renumberFrom (if previous = some a.key then stmt else stmt + 1) (some a.key) [] rest := by
  rw [renumberFrom, renumberFrom_append]
  rfl

theorem map_renumberFrom (stmt : Int) (previous : Option (String × Int)) (atoms : List Atom) :
    (renumberFrom stmt previous [] atoms).map Atom.unnumbered = atoms.map Atom.unnumbered := by
  induction atoms generalizing stmt previous with
  | nil => rfl
  | cons a rest ih =>
      rw [renumberFrom_cons, List.map_cons, List.map_cons, ih]
      rfl

theorem map_renumber (atoms : List Atom) :
    (renumber atoms).map Atom.unnumbered = atoms.map Atom.unnumbered :=
  map_renumberFrom (-1) none atoms

theorem head?_renumber (atoms : List Atom) : ∀ a ∈ (renumber atoms).head?, a.stmt = 0 := by
  cases atoms with
  | nil => simp [renumber, renumberFrom]
  | cons a rest =>
      rw [renumber, renumberFrom_cons]
      simp

/-- The ordinal goes on by one where the atoms do not agree in name and old ordinal. -/
theorem renumberFrom_next {stmt : Int} {previous : Option (String × Int)} {atoms : List Atom} {k : Nat}
    {a b a' b' : Atom} (here : atoms[k]? = some a) (next : atoms[k + 1]? = some b)
    (here' : (renumberFrom stmt previous [] atoms)[k]? = some a')
    (next' : (renumberFrom stmt previous [] atoms)[k + 1]? = some b') :
    b'.stmt = if a.key = b.key then a'.stmt else a'.stmt + 1 := by
  induction atoms generalizing stmt previous k with
  | nil => cases here
  | cons first rest ih =>
      rw [renumberFrom_cons] at here' next'
      cases k with
      | zero =>
          cases here
          cases here'
          cases rest with
          | nil => cases next
          | cons second rest =>
              rw [renumberFrom_cons] at next'
              cases next
              cases next'
              simp
      | succ k => exact ih here next here' next'

theorem length_renumber (atoms : List Atom) : (renumber atoms).length = atoms.length := by
  have same := congrArg List.length (map_renumber atoms)
  rwa [List.length_map, List.length_map] at same

theorem exists_of_renumber {atoms : List Atom} {k : Nat} {a' : Atom}
    (here : (renumber atoms)[k]? = some a') : ∃ a, atoms[k]? = some a := by
  have inside := (List.getElem?_eq_some_iff.mp here).1
  rw [length_renumber] at inside
  exact ⟨_, List.getElem?_eq_getElem inside⟩

theorem renumber_next {atoms : List Atom} {k : Nat} {a' b' : Atom}
    (here : (renumber atoms)[k]? = some a') (next : (renumber atoms)[k + 1]? = some b') :
    b'.stmt = a'.stmt ∨ b'.stmt = a'.stmt + 1 := by
  obtain ⟨a, old⟩ := exists_of_renumber here
  obtain ⟨b, oldNext⟩ := exists_of_renumber next
  rw [renumberFrom_next old oldNext here next]
  split
  · exact Or.inl rfl
  · exact Or.inr rfl

/-- Two atoms get the same ordinal if and only if all from the one to the other agree in name and old
ordinal. -/
theorem renumber_stmt_eq_iff {atoms : List Atom} {i j : Nat} (order : i ≤ j) {a a' b' : Atom}
    (first : atoms[i]? = some a) (first' : (renumber atoms)[i]? = some a')
    (last' : (renumber atoms)[j]? = some b') :
    a'.stmt ≤ b'.stmt ∧
      (a'.stmt = b'.stmt ↔ ∀ k c, i ≤ k → k ≤ j → atoms[k]? = some c → c.key = a.key) := by
  induction j, order using Nat.le_induction generalizing b' with
  | base =>
      cases first'.symm.trans last'
      refine ⟨Int.le_refl _, fun _ k c low high found => ?_, fun _ => rfl⟩
      rw [Nat.le_antisymm high low] at found
      cases first.symm.trans found
      rfl
  | succ j order ih =>
      have inside := (List.getElem?_eq_some_iff.mp last').1
      obtain ⟨c', before'⟩ : ∃ c', (renumber atoms)[j]? = some c' :=
        ⟨_, List.getElem?_eq_getElem (Nat.lt_of_succ_lt inside)⟩
      obtain ⟨b, last⟩ := exists_of_renumber last'
      obtain ⟨c, before⟩ := exists_of_renumber before'
      obtain ⟨increasing, same⟩ := ih before'
      have step : b'.stmt = if c.key = b.key then c'.stmt else c'.stmt + 1 :=
        renumberFrom_next before last before' last'
      by_cases agree : c.key = b.key
      · rw [if_pos agree] at step
        rw [step, same]
        refine ⟨increasing, fun all k d low high found => ?_, fun all k d low high => ?_⟩
        · rcases Nat.le_succ_iff.mp high with earlier | rfl
          · exact all k d low earlier found
          · cases last.symm.trans found
            rw [← agree]
            exact all j c order (Nat.le_refl j) before
        · exact all k d low (Nat.le_succ_of_le high)
      · rw [if_neg agree] at step
        refine ⟨by omega, fun equal => by omega, fun all => absurd ?_ agree⟩
        rw [all j c order (Nat.le_succ j) before,
          all (j + 1) b (Nat.le_succ_of_le order) (Nat.le_refl _) last]

/-- The file that an atom comes from, and the statement of that file. -/
def origin (e : String × Atom) : String × Int := (e.1, e.2.stmt)

theorem ListsAll.isInclude_eq_false {index : Nat} {a : Atom} {rest : List Atom}
    {includes : List (Nat × String)} (all : ListsAll index (a :: rest) includes)
    (plain : includes.lookup index = none) : a.isInclude = false := by
  by_contra isInclude
  have listed := all 0 a rfl (by simpa using isInclude)
  exact lookup_none_iff_not_mem.mp plain listed

theorem ListsAll.skip {index : Nat} {a : Atom} {rest : List Atom} {includes : List (Nat × String)}
    (all : ListsAll index (a :: rest) includes) : ListsAll (index + 2) (rest.drop 1) includes := by
  cases rest with
  | nil => exact .nil _ _
  | cons b later => exact all.tail.tail

theorem Assembles.mem_atoms {sources : List (String × Source)}
    (all : ∀ x source, sources.lookup x = some source → ListsAll 0 source.atoms source.includes)
    {path : String} {includes : List (Nat × String)} {index : Nat} {atoms : List Atom}
    {inlined inlined' : List String} {out : List (String × Atom)}
    (assembles : Assembles sources path includes index atoms inlined out inlined') {source : Source}
    (found : sources.lookup path = some source) (part : atoms ⊆ source.atoms)
    (lists : ListsAll index atoms includes) :
    ∀ e ∈ out, (∃ source, sources.lookup e.1 = some source ∧ e.2 ∈ source.atoms) ∧
      e.2.isInclude = false := by
  induction assembles generalizing source with
  | nil => simp
  | atom plain later ih =>
      have rest := ih found (List.subset_of_cons_subset part) lists.tail
      refine List.forall_mem_cons.mpr ⟨⟨⟨source, found, part List.mem_cons_self⟩, ?_⟩, rest⟩
      exact lists.isInclude_eq_false plain
  | again directive present later ih =>
      refine ih found ?_ lists.skip
      exact fun b member => part (List.mem_cons_of_mem _ (List.mem_of_mem_drop member))
  | entered directive new found' inside later ihInside ihLater =>
      refine List.forall_mem_append.mpr
        ⟨ihInside found' (List.Subset.refl _) (all _ _ found'), ihLater found ?_ lists.skip⟩
      exact fun b member => part (List.mem_cons_of_mem _ (List.mem_of_mem_drop member))

def remoteReferences (sources : List (String × Source)) : List String :=
  (sources.flatMap fun entry => targetsOf entry.2.atoms).filter Reference.looksRemote

theorem Read.Mentions.mem_remoteReferences {r : Read} {d : Discovery} {target : String}
    (mentions : r.Mentions target) (kept : r.IsKept d)
    (remote : Reference.looksRemote target = true) : target ∈ remoteReferences d.sources := by
  obtain ⟨lines, read, named⟩ := mentions
  obtain ⟨lines', includes, read', found, -⟩ := kept
  cases read.symm.trans read'
  refine List.mem_filter.mpr ⟨List.mem_flatMap.mpr ⟨_, mem_of_lookup_eq_some found, named⟩, remote⟩

section Root

variable {fetcher : Option Fetcher} {root : String} {w w' : World} {reads : List Read} {d : Discovery}

/-- A file that was read is the root, or a directive means it; a remote one is mentioned. -/
theorem Walks.cases_of_mem (canonical : ∀ fetch ∈ fetcher, Fetcher.IsCanonical fetch)
    (walks : Walks fetcher 1 (.file (w.store.rootPath root) root)
      { graph := .ofRoot (w.store.rootPath root) } w reads (.ok d) w') {r : Read} (read : r ∈ reads) :
    r.path = w.store.rootPath root ∧ r.name = root ∨ IsCalled fetcher r.path r.name ∧
      (Reference.looksRemote r.name = true → r.name ∈ remoteReferences d.sources) := by
  have kept := (walks.keeps (Discovery.settled_root _)).reads
  rcases walks.isMet canonical (w.store.isCanonical_rootPath root) r read with
    isRoot | ⟨called, mentioned⟩
  · exact Or.inl isRoot
  · refine Or.inr ⟨called, fun remote => ?_⟩
    rcases mentioned remote with impossible | ⟨r', read', mentions⟩
    · exact absurd impossible List.not_mem_nil
    · exact mentions.mem_remoteReferences (kept r' read') remote

/-- Files that were read under one name are one file, if no remote file is called as the root is. -/
theorem Walks.path_eq_of_name_eq (canonical : ∀ fetch ∈ fetcher, Fetcher.IsCanonical fetch)
    (steady : ∀ fetch ∈ fetcher, Fetcher.IsSteady fetch)
    (walks : Walks fetcher 1 (.file (w.store.rootPath root) root)
      { graph := .ofRoot (w.store.rootPath root) } w reads (.ok d) w')
    (apart : root ∉ remoteReferences d.sources) {r r' : Read} (read : r ∈ reads) (read' : r' ∈ reads)
    (same : r.name = r'.name) : r.path = r'.path := by
  have rooted {r : Read} (read : r ∈ reads) (isRoot : r.name = root) :
      r.path = w.store.rootPath root := by
    rcases walks.cases_of_mem canonical read with ⟨path, -⟩ | ⟨called, mentioned⟩
    · exact path
    · rw [isRoot] at called mentioned
      cases called with
      | stored same' canonical' =>
          rw [same', Store.rootPath, Path.absolute, if_pos canonical'.1, canonical'.2]
      | fetched remote given ran => exact absurd (mentioned remote) apart
  by_cases isRoot : r.name = root
  · rw [rooted read isRoot, rooted read' (same.symm.trans isRoot)]
  · rcases walks.cases_of_mem canonical read with ⟨-, name⟩ | ⟨called, -⟩
    · exact absurd name isRoot
    rcases walks.cases_of_mem canonical read' with ⟨-, name⟩ | ⟨called', -⟩
    · exact absurd (same.trans name) isRoot
    rw [same] at called
    exact called.path_eq steady called'

/-- What is kept of a file is what was read. -/
theorem Walks.read_of_lookup {path name : String}
    (walks : Walks fetcher 1 (.file path name) { graph := .ofRoot path } w reads (.ok d) w')
    {x : String} {source : Source} (found : d.sources.lookup x = some source) :
    ListsAll 0 source.atoms source.includes ∧ ∃ r ∈ reads, r.path = x ∧
      ∃ lines, r.store.readLines r.path = .ok lines ∧ source.atoms = lex r.name lines := by
  have member : x ∈ d.keys := List.mem_map.mpr ⟨_, mem_of_lookup_eq_some found, rfl⟩
  rw [walks.settled_of_root.2] at member
  obtain ⟨r, read, rfl⟩ := List.mem_map.mp member
  obtain ⟨lines, includes, given, found', all⟩ :=
    (walks.keeps (Discovery.settled_root path)).reads r read
  cases found.symm.trans found'
  exact ⟨all, r, read, rfl, lines, given, rfl⟩

def Read.Holds (r : Read) (e : String × Atom) : Prop :=
  r.path = e.1 ∧ ∃ lines, r.store.readLines r.path = .ok lines ∧ e.2 ∈ lex r.name lines

theorem Read.Holds.file_eq {r : Read} {e : String × Atom} (holds : r.Holds e) : e.2.file = r.name := by
  obtain ⟨-, lines, -, member⟩ := holds
  rw [lex_eq] at member
  exact mem_atomsFrom member

/-- What is put together was read, and no directive is left. -/
theorem Walks.holds_of_mem {path name : String}
    (walks : Walks fetcher 1 (.file path name) { graph := .ofRoot path } w reads (.ok d) w')
    {out : List (String × Atom)} (assembled : Assembled d.sources path out) {e : String × Atom}
    (member : e ∈ out) : (∃ r ∈ reads, r.Holds e) ∧ e.2.isInclude = false := by
  obtain ⟨source, inlined, found, assembles⟩ := assembled
  have all (x : String) (source : Source) (found : d.sources.lookup x = some source) :
    ListsAll 0 source.atoms source.includes := (walks.read_of_lookup found).1
  obtain ⟨⟨source', found', inside⟩, text⟩ :=
    assembles.mem_atoms all found (List.Subset.refl _) (all _ _ found) e member
  obtain ⟨-, r, read, path, lines, given, atoms⟩ := walks.read_of_lookup found'
  rw [atoms] at inside
  exact ⟨⟨r, read, path, lines, given, inside⟩, text⟩

/-- What atoms are called tells the files apart. -/
theorem Walks.key_eq_iff (canonical : ∀ fetch ∈ fetcher, Fetcher.IsCanonical fetch)
    (steady : ∀ fetch ∈ fetcher, Fetcher.IsSteady fetch)
    (walks : Walks fetcher 1 (.file (w.store.rootPath root) root)
      { graph := .ofRoot (w.store.rootPath root) } w reads (.ok d) w')
    (apart : root ∉ remoteReferences d.sources) {r r' : Read} (read : r ∈ reads) (read' : r' ∈ reads)
    {e e' : String × Atom} (holds : r.Holds e) (holds' : r'.Holds e') :
    e.2.key = e'.2.key ↔ origin e = origin e' := by
  have nodup : (reads.map Read.path).Nodup := by
    have nodup := walks.settled_of_root.1.nodup
    rwa [List.append_nil, walks.settled_of_root.2] at nodup
  rw [Atom.key, Atom.key, origin, origin, Prod.mk.injEq, Prod.mk.injEq, holds.file_eq, holds'.file_eq,
    ← holds.1, ← holds'.1]
  constructor
  · rintro ⟨name, stmt⟩
    exact ⟨walks.path_eq_of_name_eq canonical steady apart read read' name, stmt⟩
  · rintro ⟨path, stmt⟩
    rw [List.inj_on_of_nodup_map nodup read read' path]
    exact ⟨rfl, stmt⟩

/-- Two atoms get the same ordinal if and only if they come from one statement of one file, and so do
all between them. -/
theorem Walks.stmt_eq_iff (canonical : ∀ fetch ∈ fetcher, Fetcher.IsCanonical fetch)
    (steady : ∀ fetch ∈ fetcher, Fetcher.IsSteady fetch)
    (walks : Walks fetcher 1 (.file (w.store.rootPath root) root)
      { graph := .ofRoot (w.store.rootPath root) } w reads (.ok d) w')
    (apart : root ∉ remoteReferences d.sources) {out : List (String × Atom)}
    (assembled : Assembled d.sources (w.store.rootPath root) out) {i j : Nat} {a b : Atom}
    {e f : String × Atom} (order : i ≤ j) (here : (renumber (out.map Prod.snd))[i]? = some a)
    (there : (renumber (out.map Prod.snd))[j]? = some b) (first : out[i]? = some e)
    (last : out[j]? = some f) :
    a.stmt = b.stmt ↔ origin e = origin f ∧
      ∀ k g, i < k → k < j → out[k]? = some g → origin g = origin e := by
  have origins {k : Nat} {g : String × Atom} (found : out[k]? = some g) :
      g.2.key = e.2.key ↔ origin g = origin e := by
    obtain ⟨⟨r, read, holds⟩, -⟩ := walks.holds_of_mem assembled (List.mem_of_getElem? found)
    obtain ⟨⟨r', read', holds'⟩, -⟩ := walks.holds_of_mem assembled (List.mem_of_getElem? first)
    exact walks.key_eq_iff canonical steady apart read read' holds holds'
  have first' : (out.map Prod.snd)[i]? = some e.2 := by
    rw [List.getElem?_map, first]
    rfl
  rw [(renumber_stmt_eq_iff order first' here there).2]
  constructor
  · intro all
    have all' {k : Nat} {g : String × Atom} (low : i ≤ k) (high : k ≤ j) (found : out[k]? = some g) :
        origin g = origin e := by
      refine (origins found).mp (all k g.2 low high ?_)
      rw [List.getElem?_map, found]
      rfl
    exact ⟨(all' order (Nat.le_refl j) last).symm,
      fun k g low high => all' (Nat.le_of_lt low) (Nat.le_of_lt high)⟩
  · rintro ⟨ends, between⟩ k c low high found
    rw [List.getElem?_map] at found
    obtain ⟨g, found', rfl⟩ := Option.map_eq_some_iff.mp found
    apply (origins found').mpr
    rcases Nat.eq_or_lt_of_le low with rfl | after
    · cases first.symm.trans found'
      rfl
    rcases Nat.eq_or_lt_of_le high with rfl | before
    · cases last.symm.trans found'
      exact ends.symm
    exact between k g after before found'

end Root

theorem load_ok {fetcher : Option Fetcher} {root : String} {w w' : World} {atoms : List Atom}
    (loaded : (load fetcher root).run w = (.ok atoms, w')) :
    ∃ d w₁, (discover fetcher depthLimit (w.store.rootPath root) root
        { graph := .ofRoot (w.store.rootPath root) }).run w = (.ok d, w₁) ∧
      atoms = renumber (splice d.sources (w.store.rootPath root)) := by
  have stored : Action.store.run w = (.ok w.store, w) := rfl
  cases isFile : w.store.isFile root with
  | false =>
      rw [load_of_no_file fetcher isFile] at loaded
      cases loaded
  | true =>
      rw [load, Attempt.run_bind_ok stored, isFile] at loaded
      simp only [Bool.not_true, Bool.false_eq_true, if_false] at loaded
      obtain ⟨path, w₀, placed, entered⟩ := Attempt.run_bind_eq_ok.mp loaded
      rcases w.store.absolute_cases root with here | ⟨-, -, lost⟩
      · rw [here] at placed
        cases placed
        obtain ⟨d, w₁, found, rest⟩ := Attempt.run_bind_eq_ok.mp entered
        refine ⟨d, w₁, found, ?_⟩
        split at rest
        · cases rest
        · cases rest
          rfl
      · rw [lost] at placed
        cases placed

/-- Statements of different files are kept apart. Of every program that is read, no directive is left;
the ordinals start at 0, and each is that of the atom before or the next; and two atoms have the same
ordinal if and only if they come from one statement of one file, and so do all atoms between them.

That a reference means one path whenever it is fetched (`IsSteady`), and a canonical one, is the contract of
every fetcher. Fetching through a cache keeps it (`Cache.fetch_isSteady`, `Cache.fetch_isCanonical`). -/
theorem loaded_statements_apart {fetcher : Option Fetcher}
    (canonical : ∀ fetch ∈ fetcher, Fetcher.IsCanonical fetch)
    (steady : ∀ fetch ∈ fetcher, Fetcher.IsSteady fetch) {root : String} {w w' : World}
    {atoms : List Atom} (loaded : (load fetcher root).run w = (.ok atoms, w')) :
    let path := w.store.rootPath root
    let start : Discovery := { graph := .ofRoot path }
    ∃ reads d w₁ out,
      (discover fetcher depthLimit path root start).run w = (.ok d, w₁) ∧
      Walks fetcher 1 (.file path root) start w reads (.ok d) w₁ ∧
      Assembled d.sources path out ∧
      (∀ e ∈ out, ∃ r ∈ reads, r.Holds e) ∧
      atoms.map Atom.unnumbered = out.map (fun e => e.2.unnumbered) ∧
      (∀ a ∈ atoms, a.isInclude = false) ∧
      (∀ a ∈ atoms.head?, a.stmt = 0) ∧
      (∀ (i : Nat) (a b : Atom), atoms[i]? = some a → atoms[i + 1]? = some b →
        b.stmt = a.stmt ∨ b.stmt = a.stmt + 1) ∧
      (root ∉ remoteReferences d.sources →
        ∀ (i j : Nat) (a b : Atom) (e f : String × Atom), i ≤ j →
          atoms[i]? = some a → atoms[j]? = some b → out[i]? = some e → out[j]? = some f →
          (a.stmt = b.stmt ↔ origin e = origin f ∧
            ∀ k g, i < k → k < j → out[k]? = some g → origin g = origin e)) := by
  intro path start
  obtain ⟨d, w₁, ran, atoms_eq⟩ := load_ok loaded
  obtain ⟨reads, walks⟩ := walks_root fetcher path root w
  rw [ran] at walks
  obtain ⟨out, assembled, spliced⟩ := walks.assembled
  rw [spliced] at atoms_eq
  have held {e : String × Atom} (member : e ∈ out) := walks.holds_of_mem assembled member
  have same : atoms.map Atom.unnumbered = out.map (fun e => e.2.unnumbered) := by
    rw [atoms_eq, map_renumber, List.map_map]
    rfl
  refine ⟨reads, d, w₁, out, ran, walks, assembled, fun e member => (held member).1, same, ?_, ?_, ?_,
    ?_⟩
  · intro a member
    have unnumbered : a.unnumbered ∈ out.map (fun e => e.2.unnumbered) := by
      rw [← same]
      exact List.mem_map_of_mem member
    obtain ⟨e, inside, equal⟩ := List.mem_map.mp unnumbered
    calc a.isInclude = a.unnumbered.isInclude := rfl
      _ = e.2.unnumbered.isInclude := by rw [equal]
      _ = false := (held inside).2
  · rw [atoms_eq]
    exact head?_renumber _
  · rw [atoms_eq]
    exact fun i a b => renumber_next
  · rw [atoms_eq]
    intro apart i j a b e f order here there first last
    exact walks.stmt_eq_iff canonical steady apart assembled order here there first last

namespace Cache

variable {c : Cache} {remotes : Remotes}

theorem path_of_fetch {text path : String} {w w' : World}
    (fetched : (c.fetch remotes text).run w = (.ok path, w')) :
    ∃ r, Reference.parse text = .ok r ∧ path = Path.join [c.checkoutPath r.repo r.ref, r.file] := by
  cases parsed : Reference.parse text with
  | error fault =>
      rw [fetch, parsed] at fetched
      cases fetched
  | ok r =>
      refine ⟨r, rfl, ?_⟩
      rcases ran : (c.provide remotes r).run w with ⟨fault | done, w₁⟩
      · rw [run_fetch_of_error parsed ran] at fetched
        cases fetched
      · rw [run_fetch_of_provided parsed ran] at fetched
        cases found : c.resolve w₁.store r with
        | error fault =>
            rw [found] at fetched
            cases fetched
        | ok path' =>
            rw [found] at fetched
            cases fetched
            exact path_of_resolve found

theorem fetch_isSteady : Fetcher.IsSteady (c.fetch remotes) := by
  intro text v v' w w' path path' fetched fetched'
  obtain ⟨r, parsed, given⟩ := path_of_fetch fetched
  obtain ⟨r', parsed', given'⟩ := path_of_fetch fetched'
  cases parsed.symm.trans parsed'
  rw [given, given']

theorem fetch_isCanonical (absolute : Path.isAbsolute c.dir = true) :
    Fetcher.IsCanonical (c.fetch remotes) := by
  intro text w path w' fetched
  obtain ⟨r, -, rfl⟩ := path_of_fetch fetched
  exact Path.isCanonical_join (Path.isAbsolute_join absolute _) _

end Cache

/-- A file without atoms and a file that is there already leave the statements around them whole, and a
file with atoms cuts one in two. -/
def rejoined : Store where
  cwd := ["q"]
  entries :=
    [(["q"], .directory), (["c"], .directory), (["c", "h.com"], .directory),
      (["c", "h.com", "o"], .directory), (["c", "h.com", "o", "r@v1"], .directory),
      (["c", "h.com", "o", "r@v1", "lib.dawn"], .file (Utf8.encode "int a = 1") false),
      (["q", "empty.dawn"], .file [] false),
      (["q", "part.dawn"], .file (Utf8.encode "int z = 3") false),
      (["q", "main.dawn"], .file (Utf8.encode (String.intercalate "\n"
        ["x = include \"empty.dawn\" 1", "include \"h.com/o/r/lib.dawn@v1\"",
          "y = include \"./part.dawn\" 2 include \"h.com/o/r/lib.dawn@v1\" + 3"])) false)]

theorem loaded_statements_apart_rejoined :
    let fetch := (⟨"/c"⟩ : Cache).fetch { clone := fun _ => .error (.plain "repository not found") }
    Fetcher.IsCanonical fetch ∧ Fetcher.IsSteady fetch ∧
    ∃ atoms w', ∃ d : Discovery, ∃ out,
      (load (some fetch) "main.dawn").run ⟨rejoined, []⟩ = (.ok atoms, w') ∧
      Assembled d.sources (rejoined.rootPath "main.dawn") out ∧
      "main.dawn" ∉ remoteReferences d.sources ∧
      atoms.map Atom.stmt = [0, 0, 0, 1, 1, 1, 1, 2, 2, 3, 3, 3, 3, 4, 4, 4] ∧
      ∀ (i j : Nat) (a b : Atom) (e f : String × Atom), i ≤ j →
        atoms[i]? = some a → atoms[j]? = some b → out[i]? = some e → out[j]? = some f →
        (a.stmt = b.stmt ↔ origin e = origin f ∧
          ∀ k g, i < k → k < j → out[k]? = some g → origin g = origin e) := by
  intro fetch
  have canonical : Fetcher.IsCanonical fetch := Cache.fetch_isCanonical (by decide)
  have steady : Fetcher.IsSteady fetch := Cache.fetch_isSteady
  have stmts : ((load (some fetch) "main.dawn").run ⟨rejoined, []⟩).1.toOption.map
      (List.map Atom.stmt) = some [0, 0, 0, 1, 1, 1, 1, 2, 2, 3, 3, 3, 3, 4, 4, 4] := by
    decide +kernel
  have references : ((discover (some fetch) depthLimit (rejoined.rootPath "main.dawn") "main.dawn"
      { graph := .ofRoot (rejoined.rootPath "main.dawn") }).run ⟨rejoined, []⟩).1.toOption.map
        (fun d => remoteReferences d.sources) =
      some ["h.com/o/r/lib.dawn@v1", "h.com/o/r/lib.dawn@v1"] := by
    decide +kernel
  rcases loaded : (load (some fetch) "main.dawn").run ⟨rejoined, []⟩ with ⟨fault | atoms, w'⟩
  · rw [loaded] at stmts
    cases stmts
  rw [loaded] at stmts
  have canonical' : ∀ f ∈ some fetch, Fetcher.IsCanonical f := by
    rintro _ ⟨⟩
    exact canonical
  have steady' : ∀ f ∈ some fetch, Fetcher.IsSteady f := by
    rintro _ ⟨⟩
    exact steady
  obtain ⟨reads, d, w₁, out, found, -, assembled, -, -, -, -, -, same⟩ :=
    loaded_statements_apart canonical' steady' loaded
  dsimp only at found
  rw [found] at references
  have references' : remoteReferences d.sources =
    ["h.com/o/r/lib.dawn@v1", "h.com/o/r/lib.dawn@v1"] := Option.some.inj references
  have apart : "main.dawn" ∉ remoteReferences d.sources := by
    rw [references']
    decide
  exact ⟨canonical, steady, atoms, w', d, out, rfl, assembled, apart, Option.some.inj stmts, same apart⟩

end DawnC
