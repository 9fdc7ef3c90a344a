import DawnC.Proofs.Include.Effects
import DawnC.Proofs.Include.Splicing
import DawnC.Proofs.Include.Walk
import DawnC.Proofs.Store.Absolute
import Mathlib.Data.Finset.Card

set_option autoImplicit false

namespace DawnC

namespace Path

variable {path path' : String}

/-- A canonical path names the place of its elements, wherever the working directory is. -/
theorem IsCanonical.place_eq (canonical : IsCanonical path) (cwd : List String) :
    place cwd path = cleanElements path := by
  have followed : follow [] (cleanElements path) = follow [] (elements path) :=
    follow_cleanElements fun _ => rfl
  rw [place, if_pos canonical.1, ← followed, follow_names (cleanElements_isName canonical.1),
    List.nil_append]

/-- Two canonical paths of one place are the same. -/
theorem IsCanonical.eq_of_place (canonical : IsCanonical path) (canonical' : IsCanonical path')
    {cwd cwd' : List String} (same : place cwd path = place cwd' path') : path = path' := by
  rw [canonical.place_eq, canonical'.place_eq] at same
  rw [← canonical.2, ← canonical'.2, clean, clean, canonical.1, canonical'.1, same]

theorem isCanonical_join {first : String} (rooted : isAbsolute first = true) (second : String) :
    IsCanonical (join [first, second]) := by
  refine ⟨isAbsolute_join rooted second, ?_⟩
  rw [join_pair (ne_empty rooted)]
  apply clean_clean
  rw [String.append_assoc, isAbsolute_append (ne_empty rooted)]
  exact rooted

theorem isCanonical_absolute {cwd : String} (rooted : isAbsolute cwd = true) (path : String) :
    IsCanonical (absolute cwd path) := by
  rw [absolute]
  split
  · rename_i isAbsolute
    exact ⟨isAbsolute_clean isAbsolute, clean_clean isAbsolute⟩
  · exact isCanonical_join rooted path

end Path

namespace Store

variable {s : Store} {path : String}

def isRegular (s : Store) (place : Location) : Bool :=
  match s.get? place with
  | some (.file ..) => true
  | _ => false

def regularFiles (s : Store) : Finset Location :=
  (s.entries.map Prod.fst).toFinset.filter fun place => s.isRegular place = true

theorem mem_regularFiles {place : Location} {contents : Bytes} {executable : Bool}
    (found : s.get? place = some (.file contents executable)) : place ∈ s.regularFiles := by
  have down : place ≠ [] := by
    intro root
    rw [root, get?_root] at found
    cases found
  have listed : (place, Entry.file contents executable) ∈ s.entries := by
    rw [get?_of_ne down] at found
    exact mem_of_lookup_eq_some found
  rw [regularFiles, Finset.mem_filter, List.mem_toFinset]
  refine ⟨List.mem_map.mpr ⟨_, listed, rfl⟩, ?_⟩
  rw [isRegular, found]

/-- What can be read is a regular file, at the place of its path. -/
theorem place_mem_of_readLines {lines : List Bytes} (read : s.readLines path = .ok lines) :
    Path.place s.cwd path ∈ s.regularFiles := by
  have tree : s.TreeAt s.cwd := ⟨rfl⟩
  cases contents : s.readFile path with
  | error fault =>
      rw [readLines, contents] at read
      cases read
  | ok bytes =>
      obtain ⟨⟨executable, there⟩, -⟩ := tree.file_of_readFile contents
      exact mem_regularFiles there

end Store

theorem Read.Succeeds.place_mem {r : Read} (succeeds : r.Succeeds) :
    Path.place r.store.cwd r.path ∈ r.store.regularFiles := by
  obtain ⟨lines, read⟩ := succeeds
  exact Store.place_mem_of_readLines read

/-- Files that are read under different canonical paths are different files. -/
theorem length_le_card {reads : List Read} {files : Finset Location}
    (nodup : (reads.map Read.path).Nodup) (canonical : ∀ r ∈ reads, Path.IsCanonical r.path)
    (succeeds : ∀ r ∈ reads, r.Succeeds) (confined : ∀ r ∈ reads, r.store.regularFiles ⊆ files) :
    reads.length ≤ files.card := by
  have places : (reads.map fun r => Path.place r.store.cwd r.path).Nodup := by
    refine List.Nodup.map_on ?_ (List.Nodup.of_map _ nodup)
    intro r member r' member' same
    exact List.inj_on_of_nodup_map nodup member member'
      ((canonical r member).eq_of_place (canonical r' member') same)
  have inside : (reads.map fun r => Path.place r.store.cwd r.path).toFinset ⊆ files := by
    intro place member
    obtain ⟨r, looked, rfl⟩ := List.mem_map.mp (List.mem_toFinset.mp member)
    exact confined r looked (succeeds r looked).place_mem
  calc reads.length = (reads.map fun r => Path.place r.store.cwd r.path).length :=
        (List.length_map _).symm
    _ = (reads.map fun r => Path.place r.store.cwd r.path).toFinset.card :=
        (List.toFinset_card_of_nodup places).symm
    _ ≤ files.card := Finset.card_le_card inside

namespace Walks

variable {fetcher : Option Fetcher} {level : Nat} {task : Task} {d : Discovery} {w w' : World}
  {reads : List Read} {result : Except Fault Discovery}

/-- Where fetches change no file, discovery looks at the same files all along. -/
theorem store_eq (walks : Walks fetcher level task d w reads result w')
    (still : ∀ fetch ∈ fetcher, ∀ text v, ((fetch text).run v).2.store = v.store) :
    w'.store = w.store ∧ ∀ r ∈ reads, r.store = w.store := by
  have fetched : ∀ fetch ∈ fetcher, ∀ text, Attempt.Sustains (World.OnStore Eq) (fetch text) :=
    fun fetch given text v => (still fetch given text v).symm
  have resolve {path : String} {index : Nat} {target : Atom} {v v' : World}
      {outcome : Except Fault (String × String)}
      (ran : (resolveDirective fetcher path index target).run v = (outcome, v')) :
      v'.store = v.store := by
    have sustained : Attempt.Sustains (World.OnStore Eq) (resolveDirective fetcher path index target) :=
      .tryCatch (resolveTarget_sustains fetched _ _) fun _ => .throw _
    exact (sustained.of_run ran).symm
  have told (v : World) (event : Event) : (v.told event).store = v.store := rfl
  induction walks with
  | unread failed => simp
  | read read inside ih => exact ⟨ih.1, List.forall_mem_cons.mpr ⟨rfl, ih.2⟩⟩
  | nil => simp
  | text text later ih => exact ih
  | atEnd isInclude => simp
  | unresolved isInclude failed => exact ⟨resolve failed, by simp⟩
  | known isInclude resolved known later ih =>
      rw [told, resolve resolved] at ih
      exact ih
  | failed isInclude resolved new below ih =>
      rw [told, resolve resolved] at ih
      exact ih
  | entered isInclude resolved new below later ihBelow ihLater =>
      rw [told, resolve resolved] at ihBelow
      rw [ihBelow.1] at ihLater
      exact ⟨ihLater.1, List.forall_mem_append.mpr ⟨ihBelow.2, ihLater.2⟩⟩

theorem mem_of_file {path name : String}
    (walks : Walks fetcher level (.file path name) d w reads result w') :
    path ∈ reads.map Read.path := by
  cases walks with
  | unread failed => simp
  | read read inside => simp

/-- No more files are open at a time than there are regular files, and one. -/
theorem level_le_card {path name : String}
    (walks : Walks fetcher 1 (.file path name) d w reads result w') (settled : d.Settled [path])
    (canonical : ∀ fetch ∈ fetcher, Fetcher.IsCanonical fetch) (start : Path.IsCanonical path)
    {files : Finset Location} (confined : ∀ r ∈ reads, r.store.regularFiles ⊆ files) :
    ∀ r ∈ reads, r.level ≤ files.card + 1 := by
  have nodup : (reads.map Read.path).Nodup := (List.nodup_append.mp (walks.settles settled).nodup).2.1
  have canonicals := walks.isCanonical canonical start
  have firsts : reads.dropLast ⊆ reads := fun r member => List.mem_of_mem_dropLast member
  have count : reads.dropLast.length ≤ files.card := by
    apply length_le_card
    · exact ((List.dropLast_sublist reads).map Read.path).nodup nodup
    · exact fun r member => canonicals r (firsts member)
    · exact walks.succeeds.1
    · exact fun r member => confined r (firsts member)
  rw [List.length_dropLast] at count
  intro r member
  have deep := walks.level_le r member
  rw [Task.opens] at deep
  omega

end Walks

theorem Discovery.settled_root (root : String) :
    ({ graph := .ofRoot root } : Discovery).Settled [root] where
  nodes x := by
    rw [IncludeGraph.contains_iff]
    simp [IncludeGraph.ofRoot, keys]
  nodup := by simp [keys]
  targets entry member := absurd member List.not_mem_nil

theorem Discovery.Settled.lookup {d : Discovery} (settled : d.Settled []) {path : String}
    (node : d.graph.contains path = true) : path ∈ d.keys := by
  have either := (settled.nodes path).mp node
  simpa using either

/-- Where discovery succeeds, all that directives mean was read. -/
theorem Discovery.Settled.hasTargets {d : Discovery} (settled : d.Settled []) :
    HasTargets d.sources :=
  fun entry member directive inside => settled.lookup (settled.targets entry member directive inside)

theorem Store.isCanonical_rootPath (s : Store) (root : String) :
    Path.IsCanonical (s.rootPath root) := Path.isCanonical_absolute s.isAbsolute_cwdPath root

theorem walks_root (fetcher : Option Fetcher) (path name : String) (w : World) :
    ∃ reads, Walks fetcher 1 (.file path name) { graph := .ofRoot path } w reads
      ((discover fetcher depthLimit path name { graph := .ofRoot path }).run w).1
      ((discover fetcher depthLimit path name { graph := .ofRoot path }).run w).2 := by
  have short : ({ graph := .ofRoot path } : Discovery).IsShort :=
    fun key member => absurd member List.not_mem_nil
  exact discover_covers fetcher depthLimit 1 path name _ w (Discovery.settled_root path) short
    (Nat.le_add_right _ _)

namespace Walks

variable {fetcher : Option Fetcher} {path name : String} {d : Discovery} {w w' : World}
  {reads : List Read}

/-- All that a walk from a root meets is read by it. -/
theorem settled_of_root
    (walks : Walks fetcher 1 (.file path name) { graph := .ofRoot path } w reads (.ok d) w') :
    d.Settled [] ∧ d.keys = reads.map Read.path := by
  cases walks.settles (Discovery.settled_root path) with
  | ok settled keys => exact ⟨settled, keys⟩

theorem assembled
    (walks : Walks fetcher 1 (.file path name) { graph := .ofRoot path } w reads (.ok d) w') :
    ∃ out, Assembled d.sources path out ∧ splice d.sources path = out.map Prod.snd := by
  obtain ⟨settled, keys⟩ := walks.settled_of_root
  apply assembled_splice settled.hasTargets
  change path ∈ d.keys
  rw [keys]
  exact walks.mem_of_file

end Walks

/-- Discovery from a root ends, whatever the files hold, with what `discover` comes to and nothing else.
It looks into every file once at most, under its canonical path; no more files are open at a time than
there are regular files, and one; and if it succeeds, all nodes were read, and all that putting the
files together looks for is there. -/
theorem discovery_ends {fetcher : Option Fetcher}
    (canonical : ∀ fetch ∈ fetcher, Fetcher.IsCanonical fetch) (root : String) (w : World) :
    let path := Path.absolute w.store.cwdPath root
    let start : Discovery := { graph := .ofRoot path }
    ∃ reads result w',
      Walks fetcher 1 (.file path root) start w reads result w' ∧
      (∀ reads' result' w'', Walks fetcher 1 (.file path root) start w reads' result' w'' →
        reads' = reads ∧ result' = result ∧ w'' = w') ∧
      (discover fetcher depthLimit path root start).run w = (result, w') ∧
      (reads.map Read.path).Nodup ∧
      (∀ r ∈ reads, Path.IsCanonical r.path) ∧
      (∀ files : Finset Location, (∀ r ∈ reads, r.store.regularFiles ⊆ files) →
        ∀ r ∈ reads, r.level ≤ files.card + 1) ∧
      ((∀ fetch ∈ fetcher, ∀ text v, ((fetch text).run v).2.store = v.store) →
        ∀ r ∈ reads, r.level ≤ w.store.regularFiles.card + 1) ∧
      ∀ d, result = .ok d →
        (∀ node, d.graph.contains node = true ↔ node ∈ reads.map Read.path) ∧
        (∀ node, d.graph.contains node = true → (d.sources.lookup node).isSome = true) ∧
        ∃ out, Assembled d.sources path out ∧ splice d.sources path = out.map Prod.snd := by
  intro path start
  have settled : start.Settled [path] := Discovery.settled_root path
  have canonicalRoot : Path.IsCanonical path := w.store.isCanonical_rootPath root
  obtain ⟨reads, walks⟩ := walks_root fetcher path root w
  rcases ran : (discover fetcher depthLimit path root start).run w with ⟨result, w'⟩
  rw [show ({ graph := .ofRoot path } : Discovery) = start from rfl, ran] at walks
  refine ⟨reads, result, w', walks, fun _ _ _ other => other.unique walks, rfl, ?_, ?_, ?_, ?_, ?_⟩
  · exact (List.nodup_append.mp (walks.settles settled).nodup).2.1
  · exact walks.isCanonical canonical canonicalRoot
  · exact fun files confined => walks.level_le_card settled canonical canonicalRoot confined
  · intro still
    apply walks.level_le_card settled canonical canonicalRoot
    intro r member
    rw [(walks.store_eq still).2 r member]
  · intro d success
    rw [success] at walks
    obtain ⟨settled', keys⟩ := walks.settled_of_root
    have nodes (node : String) : d.graph.contains node = true ↔ node ∈ reads.map Read.path := by
      rw [settled'.nodes, keys]
      simp
    refine ⟨nodes, fun node met => ?_, walks.assembled⟩
    obtain ⟨source, found⟩ := exists_lookup_of_mem (settled'.lookup met)
    rw [found]
    rfl

/-- A file that includes itself and, as a remote file, another one that includes it back. -/
def crossed : Store where
  entries :=
    [(["p"], .directory),
      (["p", "a.dawn"], .file (Utf8.encode (String.intercalate "\n"
        ["include \"./a.dawn\"", "include \"h.com/o/r/b.dawn@v1\"",
          "include \"h.com/o/r/b.dawn@v2\""])) false),
      (["p", "b.dawn"], .file (Utf8.encode "#include \"..//p/./a.dawn\"") false)]

theorem discovery_ends_crossed :
    let fetch : Fetcher := fun _ => pure "/p/b.dawn"
    Fetcher.IsCanonical fetch ∧ ∃ reads d w',
      Walks (some fetch) 1 (.file "/p/a.dawn" "p/a.dawn") { graph := .ofRoot "/p/a.dawn" }
        { store := crossed } reads (.ok d) w' ∧
      d.graph.nodes = [("/p/a.dawn", ["/p/a.dawn", "/p/b.dawn", "/p/b.dawn"]),
        ("/p/b.dawn", ["/p/a.dawn"])] ∧
      (reads.map Read.path).Nodup ∧ ∀ r ∈ reads, r.level ≤ 3 := by
  intro fetch
  have canonical : Fetcher.IsCanonical fetch := by
    intro text w path w' ran
    cases ran
    exact ⟨by decide +kernel, by decide +kernel⟩
  have path : Path.absolute crossed.cwdPath "p/a.dawn" = "/p/a.dawn" := by decide +kernel
  have found : ((discover (some fetch) depthLimit "/p/a.dawn" "p/a.dawn"
      { graph := .ofRoot "/p/a.dawn" }).run { store := crossed }).1.toOption.map
        (fun d => d.graph.nodes) =
      some [("/p/a.dawn", ["/p/a.dawn", "/p/b.dawn", "/p/b.dawn"]), ("/p/b.dawn", ["/p/a.dawn"])] := by
    decide +kernel
  have files : crossed.regularFiles.card = 2 := by decide +kernel
  have unmoved : ∀ text v, ((fetch text).run v).2.store = v.store := fun _ _ => rfl
  have canonical' : ∀ f ∈ some fetch, Fetcher.IsCanonical f := by
    rintro _ ⟨⟩
    exact canonical
  obtain ⟨reads, result, w', walks, -, ran, nodup, -, -, deep, -⟩ :=
    discovery_ends canonical' "p/a.dawn" { store := crossed }
  dsimp only at walks ran deep
  rw [path] at walks ran
  rw [ran] at found
  cases result with
  | error fault => cases found
  | ok d =>
      refine ⟨canonical, reads, d, w', walks, Option.some.inj found, nodup, ?_⟩
      rw [files] at deep
      apply deep
      rintro _ ⟨⟩
      exact unmoved

end DawnC
