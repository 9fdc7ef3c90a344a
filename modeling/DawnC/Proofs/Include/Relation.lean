import DawnC.Include.Load
import DawnC.Proofs.Include.Lines
import DawnC.Proofs.Path
import Mathlib.Data.Nat.Digits.Lemmas
import Mathlib.Logic.Relation

set_option autoImplicit false

namespace DawnC

/-- What the line includes, if it is an include directive with a quoted path and nothing else. -/
def directive? (line : Bytes) : Option String :=
  match atomsOf line with
  | [keyword, target] =>
    if keyword.isInclude && target.kind = .string then some (unquoted target.text) else none
  | _ => none

def isText (line : Bytes) : Bool := (atomsOf line).all fun a => !a.isInclude

def targetPath (including target : String) : String :=
  if Path.isAbsolute target then target else Path.join [Path.directory including, target]

def includedPath (including target : String) : String := Path.clean (targetPath including target)

namespace Store

def rootPath (s : Store) (root : String) : String := Path.absolute s.cwdPath root

/-- A file has a directive that means the other. -/
def Includes (s : Store) (including included : String) : Prop :=
  ∃ lines, s.readLines including = .ok lines ∧ ∃ line ∈ lines, ∃ target,
    directive? line = some target ∧ included = includedPath including target

/-- The file is the root or is included, over any number of files. -/
def Reaches (s : Store) (root path : String) : Prop :=
  Relation.ReflTransGen s.Includes (s.rootPath root) path

/-- A file that can be reached from the root includes itself, over any number of files. -/
def Cyclic (s : Store) (root : String) : Prop :=
  ∃ path, s.Reaches root path ∧ Relation.TransGen s.Includes path path

/-- The line has no directive, or is one that names a local file which is there. -/
def isTidy (s : Store) (path : String) (line : Bytes) : Bool :=
  match directive? line with
  | none => isText line
  | some target =>
    target ≠ "" && !Reference.looksRemote target && s.isFile (targetPath path target)

/-- All the files of a program can be read, and all directives are tidy. -/
structure IsProgram (s : Store) (root : String) : Prop where
  isFile : s.isFile root = true
  /-- the root has a path from the root of the tree -/
  located : (Path.isAbsolute root || s.hasWorkingDirectory) = true
  readable : ∀ path, s.Reaches root path →
    ∃ lines, s.readLines path = .ok lines ∧ ∀ line ∈ lines, s.isTidy path line = true

def includesOf (s : Store) (path : String) : List String :=
  match s.readLines path with
  | .ok lines => lines.filterMap fun line => (directive? line).map (includedPath path)
  | .error _ => []

theorem mem_includesOf {s : Store} {including included : String} :
    included ∈ s.includesOf including ↔ s.Includes including included := by
  rw [includesOf, Includes]
  cases s.readLines including with
  | error fault => simp
  | ok lines => simp [eq_comm]

instance (s : Store) (including included : String) : Decidable (s.Includes including included) :=
  decidable_of_iff _ mem_includesOf

/-- The file can be read, its directives are tidy, and they mean files of `allowed`. -/
def readsWithin (s : Store) (allowed : List String) (path : String) : Bool :=
  (s.includesOf path).all (· ∈ allowed) &&
    match s.readLines path with
    | .ok lines => lines.all (s.isTidy path)
    | .error _ => false

/-- Lines of the file `path` with their includes written out. The files of `present` are there
already; `present'` are those that are there after the lines. -/
inductive Flattens (s : Store) :
    String → List Bytes → List String → List Bytes → List String → Prop where
  | nil {path : String} {present : List String} : Flattens s path [] present [] present
  | text {path : String} {line : Bytes} {lines flat : List Bytes} {present present' : List String}
      (plain : directive? line = none) (rest : Flattens s path lines present flat present') :
      Flattens s path (line :: lines) present (line :: flat) present'
  | first {path target included : String} {line : Bytes} {lines inner flat flat' : List Bytes}
      {present present' present'' : List String} (directive : directive? line = some target)
      (meant : included = includedPath path target) (new : included ∉ present)
      (read : s.readLines included = .ok inner)
      (inside : Flattens s included inner (included :: present) flat present')
      (rest : Flattens s path lines present' flat' present'') :
      Flattens s path (line :: lines) present (flat ++ flat') present''
  | again {path target included : String} {line : Bytes} {lines flat : List Bytes}
      {present present' : List String} (directive : directive? line = some target)
      (meant : included = includedPath path target) (old : included ∈ present)
      (rest : Flattens s path lines present flat present') :
      Flattens s path (line :: lines) present flat present'

def Flattened (s : Store) (root : String) (flat : List Bytes) : Prop :=
  ∃ lines present, s.readLines (s.rootPath root) = .ok lines ∧
    s.Flattens (s.rootPath root) lines [s.rootPath root] flat present

theorem Flattens.unique {s : Store} {path : String} {lines flat flat' : List Bytes}
    {present after after' : List String} (first : s.Flattens path lines present flat after)
    (second : s.Flattens path lines present flat' after') : flat = flat' ∧ after = after' := by
  induction first generalizing flat' after' with
  | nil =>
      cases second
      exact ⟨rfl, rfl⟩
  | text plain rest ih =>
      cases second with
      | text plain' rest' =>
          obtain ⟨rfl, rfl⟩ := ih rest'
          exact ⟨rfl, rfl⟩
      | first directive => cases plain.symm.trans directive
      | again directive => cases plain.symm.trans directive
  | first directive meant new read inside rest ihInside ihRest =>
      cases second with
      | text plain => cases plain.symm.trans directive
      | first directive' meant' new' read' inside' rest' =>
          cases directive.symm.trans directive'
          cases meant.trans meant'.symm
          cases read.symm.trans read'
          obtain ⟨rfl, rfl⟩ := ihInside inside'
          obtain ⟨rfl, rfl⟩ := ihRest rest'
          exact ⟨rfl, rfl⟩
      | again directive' meant' old =>
          cases directive.symm.trans directive'
          cases meant.trans meant'.symm
          exact absurd old new
  | again directive meant old rest ih =>
      cases second with
      | text plain => cases plain.symm.trans directive
      | first directive' meant' new =>
          cases directive.symm.trans directive'
          cases meant.trans meant'.symm
          exact absurd old new
      | again directive' meant' old' rest' => exact ih rest'

/-- A program has one flat text. -/
theorem Flattened.unique {s : Store} {root : String} {flat flat' : List Bytes}
    (first : s.Flattened root flat) (second : s.Flattened root flat') : flat = flat' := by
  obtain ⟨lines, present, read, flattens⟩ := first
  obtain ⟨lines', present', read', flattens'⟩ := second
  cases read.symm.trans read'
  exact (flattens.unique flattens').1

/-- A file that reads within some files includes only those. -/
theorem readsWithin_iff {s : Store} {allowed : List String} {path : String} :
    s.readsWithin allowed path = true ↔
      (∀ included, s.Includes path included → included ∈ allowed) ∧
        ∃ lines, s.readLines path = .ok lines ∧ ∀ line ∈ lines, s.isTidy path line = true := by
  rw [readsWithin, Bool.and_eq_true]
  refine and_congr ?_ ?_
  · simp only [List.all_eq_true, decide_eq_true_eq, mem_includesOf]
  · cases s.readLines path with
    | error fault => simp
    | ok lines => simp

/-- Files that include only each other make a program. -/
theorem IsProgram.of_readsWithin {s : Store} {root : String} {files : List String}
    (isFile : s.isFile root = true) (located : (Path.isAbsolute root || s.hasWorkingDirectory) = true)
    (rooted : s.rootPath root ∈ files)
    (each : ∀ path ∈ files, s.readsWithin files path = true) : s.IsProgram root := by
  refine ⟨isFile, located, fun path reached => ?_⟩
  have member : path ∈ files := by
    induction reached with
    | refl => exact rooted
    | tail _ included ih => exact (readsWithin_iff.mp (each _ ih)).1 _ included
  exact (readsWithin_iff.mp (each path member)).2

theorem isAbsolute_rootPath (s : Store) (root : String) : Path.isAbsolute (s.rootPath root) = true :=
  Path.isAbsolute_absolute (by simp [Path.isAbsolute_iff, cwdPath]) root

end Store

theorem isAbsolute_targetPath {including : String} (absolute : Path.isAbsolute including = true)
    (target : String) : Path.isAbsolute (targetPath including target) = true := by
  rw [targetPath]
  split
  · assumption
  · exact Path.isAbsolute_join (Path.isAbsolute_directory absolute) target

namespace Store

theorem Reaches.isAbsolute {s : Store} {root path : String} (reached : s.Reaches root path) :
    Path.isAbsolute path = true := by
  induction reached with
  | refl => exact s.isAbsolute_rootPath root
  | tail _ included ih =>
      obtain ⟨_, _, _, _, target, _, rfl⟩ := included
      exact Path.isAbsolute_clean (isAbsolute_targetPath ih target)

/-- Every file but the root is reached by its clean path. -/
theorem Reaches.clean {s : Store} {root path : String} (reached : s.Reaches root path)
    (included : path ≠ s.rootPath root) : Path.clean path = path := by
  cases reached with
  | refl => exact absurd rfl included
  | tail before last =>
      obtain ⟨_, _, _, _, target, _, rfl⟩ := last
      exact Path.clean_clean (isAbsolute_targetPath (Reaches.isAbsolute before) target)

/-- The name under which the atoms of a file are reported: the root as it was given, every other file
by its path. -/
def label (s : Store) (root path : String) : String :=
  if path = s.rootPath root then root else path

theorem label_root (s : Store) (root : String) : s.label root (s.rootPath root) = root := by
  rw [label, if_pos rfl]

/-- No included file is reported under the name of the root. -/
theorem label_ne_root {s : Store} {root path : String} (reached : s.Reaches root path)
    (included : path ≠ s.rootPath root) : s.label root path ≠ root := by
  rw [label, if_neg included]
  rintro rfl
  refine included ?_
  rw [rootPath, Path.absolute, if_pos reached.isAbsolute, reached.clean included]

theorem label_injective {s : Store} {root path path' : String} (reached : s.Reaches root path)
    (reached' : s.Reaches root path') (same : s.label root path = s.label root path') :
    path = path' := by
  by_cases first : path = s.rootPath root
  · by_cases second : path' = s.rootPath root
    · rw [first, second]
    · rw [first, label_root] at same
      exact absurd same.symm (label_ne_root reached' second)
  · by_cases second : path' = s.rootPath root
    · rw [second, label_root] at same
      exact absurd same (label_ne_root reached first)
    · rwa [label, if_neg first, label, if_neg second] at same

theorem size_lt_of_readLines {s : Store} {path : String} {lines : List Bytes}
    (read : s.readLines path = .ok lines) : path.utf8ByteSize < pathLimit := by
  by_contra long
  have start : ∃ reason, s.start path = .error reason := by
    unfold start
    split
    · exact ⟨_, rfl⟩
    · split
      · exact ⟨_, rfl⟩
      · rw [if_pos (Nat.le_of_not_lt long)]
        exact ⟨_, rfl⟩
  obtain ⟨reason, start⟩ := start
  have located : s.locate path = .error reason := by
    rw [locate, Store.target, start]
    rfl
  rw [readLines, readFile, located] at read
  cases read

/-- The bytes of a text as digits, under a leading one. -/
def digitsOf (text : String) : List Nat := text.toByteArray.data.toList.map UInt8.toNat ++ [1]

theorem digitsOf_lt (text : String) : ∀ digit ∈ digitsOf text, digit < 256 := by
  intro digit member
  rcases List.mem_append.mp member with inside | one
  · obtain ⟨byte, -, rfl⟩ := List.mem_map.mp inside
    exact byte.toNat_lt
  · rw [List.mem_singleton.mp one]
    decide

theorem digitsOf_injective : Function.Injective digitsOf := by
  intro first second same
  have bytes := List.append_cancel_right same
  have data := List.map_injective_iff.mpr (fun _ _ => UInt8.toNat_inj.mp) bytes
  exact String.toByteArray_inj.mp (ByteArray.ext (Array.toList_inj.mp data))

theorem length_digitsOf (text : String) : (digitsOf text).length = text.utf8ByteSize + 1 := by
  rw [digitsOf, List.length_append, List.length_map, Array.length_toList, ByteArray.size_data]
  rfl

/-- Texts are told apart by the numbers their bytes make. -/
theorem ofDigits_injective : Function.Injective fun text => Nat.ofDigits 256 (digitsOf text) := by
  intro first second same
  have back (text : String) : Nat.digits 256 (Nat.ofDigits 256 (digitsOf text)) = digitsOf text :=
    Nat.digits_ofDigits 256 (by decide) _ (digitsOf_lt text) fun _ => by simp [digitsOf]
  apply digitsOf_injective
  rw [← back first, ← back second]
  exact congrArg (Nat.digits 256) same

theorem length_le_pow {limit : Nat} {paths : List String} (nodup : paths.Nodup)
    (short : ∀ path ∈ paths, path.utf8ByteSize < limit) : paths.length ≤ Nat.pow 256 limit := by
  have numbers : (paths.map fun text => Nat.ofDigits 256 (digitsOf text)).Nodup :=
    nodup.map ofDigits_injective
  have below : (paths.map fun text => Nat.ofDigits 256 (digitsOf text)) ⊆
      List.range (256 ^ limit) := by
    intro number member
    obtain ⟨path, inside, rfl⟩ := List.mem_map.mp member
    rw [List.mem_range]
    calc Nat.ofDigits 256 (digitsOf path)
        < 256 ^ (digitsOf path).length :=
          Nat.ofDigits_lt_base_pow_length (by decide) (digitsOf_lt path)
      _ ≤ 256 ^ limit := by
          rw [length_digitsOf]
          exact Nat.pow_le_pow_right (by decide) (short path inside)
  have bound := (numbers.subperm below).length_le
  rwa [List.length_map, List.length_range] at bound

/-- Files that can be read are fewer than the depth at which discovery gives up. -/
theorem length_le_depthLimit {s : Store} {paths : List String} (nodup : paths.Nodup)
    (readable : ∀ path ∈ paths, ∃ lines, s.readLines path = .ok lines) :
    paths.length ≤ depthLimit := by
  have short : ∀ path ∈ paths, path.utf8ByteSize < pathLimit := by
    intro path member
    obtain ⟨lines, read⟩ := readable path member
    exact size_lt_of_readLines read
  unfold depthLimit
  generalize pathLimit = limit at short ⊢
  exact length_le_pow nodup short

end Store

end DawnC
