import DawnC.Include.Splice
import DawnC.Proofs.Include.Discovery

set_option autoImplicit false

namespace DawnC

/-- Atoms of the file `path` from an index on, put together with the files that their directives mean.
The files of `inlined` are among the atoms already, those of `inlined'` afterwards. -/
inductive Assembles (sources : List (String × Source)) :
    String → List (Nat × String) → Nat → List Atom → List String → List (String × Atom) →
      List String → Prop where
  | nil {path : String} {includes : List (Nat × String)} {index : Nat} {inlined : List String} :
      Assembles sources path includes index [] inlined [] inlined
  | atom {path : String} {includes : List (Nat × String)} {index : Nat} {a : Atom} {rest : List Atom}
      {inlined inlined' : List String} {out : List (String × Atom)}
      (plain : includes.lookup index = none)
      (later : Assembles sources path includes (index + 1) rest inlined out inlined') :
      Assembles sources path includes index (a :: rest) inlined ((path, a) :: out) inlined'
  | again {path target : String} {includes : List (Nat × String)} {index : Nat} {a : Atom}
      {rest : List Atom} {inlined inlined' : List String} {out : List (String × Atom)}
      (directive : includes.lookup index = some target) (present : target ∈ inlined)
      (later : Assembles sources path includes (index + 2) (rest.drop 1) inlined out inlined') :
      Assembles sources path includes index (a :: rest) inlined out inlined'
  | entered {path target : String} {includes : List (Nat × String)} {index : Nat} {a : Atom}
      {rest : List Atom} {inlined inlined' inlined'' : List String} {out out' : List (String × Atom)}
      {source : Source} (directive : includes.lookup index = some target) (new : target ∉ inlined)
      (found : sources.lookup target = some source)
      (inside : Assembles sources target source.includes 0 source.atoms (target :: inlined) out inlined')
      (later : Assembles sources path includes (index + 2) (rest.drop 1) inlined' out' inlined'') :
      Assembles sources path includes index (a :: rest) inlined (out ++ out') inlined''

/-- The atoms of a whole program, each with the file it comes from. -/
def Assembled (sources : List (String × Source)) (root : String) (out : List (String × Atom)) : Prop :=
  ∃ source inlined, sources.lookup root = some source ∧
    Assembles sources root source.includes 0 source.atoms [root] out inlined

theorem Assembles.unique {sources : List (String × Source)} {path : String}
    {includes : List (Nat × String)} {index : Nat} {atoms : List Atom}
    {inlined after after' : List String} {out out' : List (String × Atom)}
    (first : Assembles sources path includes index atoms inlined out after)
    (second : Assembles sources path includes index atoms inlined out' after') :
    out = out' ∧ after = after' := by
  induction first generalizing out' after' with
  | nil =>
      cases second
      exact ⟨rfl, rfl⟩
  | atom plain later ih =>
      cases second with
      | atom plain' later' =>
          obtain ⟨rfl, rfl⟩ := ih later'
          exact ⟨rfl, rfl⟩
      | again directive => cases plain.symm.trans directive
      | entered directive => cases plain.symm.trans directive
  | again directive present later ih =>
      cases second with
      | atom plain => cases plain.symm.trans directive
      | again directive' present' later' => exact ih later'
      | entered directive' new =>
          cases directive.symm.trans directive'
          exact absurd present new
  | entered directive new found inside later ihInside ihLater =>
      cases second with
      | atom plain => cases plain.symm.trans directive
      | again directive' present =>
          cases directive.symm.trans directive'
          exact absurd present new
      | entered directive' new' found' inside' later' =>
          cases directive.symm.trans directive'
          cases found.symm.trans found'
          obtain ⟨rfl, rfl⟩ := ihInside inside'
          obtain ⟨rfl, rfl⟩ := ihLater later'
          exact ⟨rfl, rfl⟩

/-- A program is put together in one way. -/
theorem Assembled.unique {sources : List (String × Source)} {root : String}
    {out out' : List (String × Atom)} (first : Assembled sources root out)
    (second : Assembled sources root out') : out = out' := by
  obtain ⟨source, after, found, assembles⟩ := first
  obtain ⟨source', after', found', assembles'⟩ := second
  cases found.symm.trans found'
  exact (assembles.unique assembles').1

def HasTargets (sources : List (String × Source)) : Prop :=
  ∀ entry ∈ sources, ∀ directive ∈ entry.2.includes, directive.2 ∈ sources.map Prod.fst

/-- The files that are among the atoms are there, each once. -/
structure IsInlined (sources : List (String × Source)) (inlined : List String) : Prop where
  nodup : inlined.Nodup
  known : inlined ⊆ sources.map Prod.fst

theorem IsInlined.length_le {sources : List (String × Source)} {inlined : List String}
    (valid : IsInlined sources inlined) : inlined.length ≤ sources.length := by
  have bound := (valid.nodup.subperm valid.known).length_le
  rwa [List.length_map] at bound

theorem mem_of_lookup_eq_some {α β : Type} [BEq α] [LawfulBEq α] {list : List (α × β)} {key : α}
    {value : β} (found : list.lookup key = some value) : (key, value) ∈ list := by
  obtain ⟨before, after, rfl, -⟩ := List.lookup_eq_some_iff.mp found
  simp

theorem exists_lookup_of_mem {α β : Type} [DecidableEq α] {list : List (α × β)} {key : α}
    (member : key ∈ list.map Prod.fst) : ∃ value, list.lookup key = some value := by
  apply Option.ne_none_iff_exists'.mp
  rwa [ne_eq, lookup_none_iff_not_mem, not_not]

/-- What was put together, with what it was added to. -/
structure Adds (sources : List (String × Source)) (path : String) (includes : List (Nat × String))
    (index : Nat) (atoms : List Atom) (s s' : Splice) : Prop where
  assembles : ∃ out, Assembles sources path includes index atoms s.inlined out s'.inlined ∧
    s'.atoms = (out.map Prod.snd).reverse ++ s.atoms
  valid : IsInlined sources s'.inlined
  more : s.inlined.length ≤ s'.inlined.length

/-- Files are added as they should be while this many levels are left. -/
def AddsFiles (sources : List (String × Source)) (depth : Nat) : Prop :=
  ∀ path source s, sources.lookup path = some source → IsInlined sources s.inlined →
    sources.length < depth + s.inlined.length →
    Adds sources path source.includes 0 source.atoms s (spliceFile sources depth path s)

theorem AddsFiles.atoms {sources : List (String × Source)} {depth : Nat}
    (adds : AddsFiles sources depth) (path : String) {includes : List (Nat × String)}
    (targets : ∀ directive ∈ includes, directive.2 ∈ sources.map Prod.fst) (index : Nat)
    (atoms : List Atom) {s : Splice} (valid : IsInlined sources s.inlined)
    (deep : sources.length ≤ depth + s.inlined.length) :
    Adds sources path includes index atoms s
      (spliceAtoms includes (spliceFile sources depth) index atoms s) := by
  induction count : atoms.length using Nat.strongRecOn generalizing index atoms s with
  | ind n ih =>
    cases atoms with
    | nil => exact ⟨⟨[], .nil, rfl⟩, valid, Nat.le_refl _⟩
    | cons a rest =>
        rw [List.length_cons] at count
        have shorter : (rest.drop 1).length < n := by
          rw [List.length_drop]
          omega
        cases directive : includes.lookup index with
        | none =>
            have step : spliceAtoms includes (spliceFile sources depth) index (a :: rest) s =
                spliceAtoms includes (spliceFile sources depth) (index + 1) rest
                  { s with atoms := a :: s.atoms } := by
              rw [spliceAtoms.eq_def]
              simp only [directive]
            have later := ih rest.length (by omega) (index + 1) rest
              (s := { s with atoms := a :: s.atoms }) valid deep rfl
            obtain ⟨out, assembles, atoms⟩ := later.assembles
            rw [step]
            refine ⟨⟨(path, a) :: out, .atom directive assembles, ?_⟩, later.valid, later.more⟩
            rw [atoms]
            simp
        | some target =>
            have step (s' : Splice) (entered : s' = if target ∈ s.inlined then s
                else spliceFile sources depth target { s with inlined := target :: s.inlined }) :
                spliceAtoms includes (spliceFile sources depth) index (a :: rest) s =
                  spliceAtoms includes (spliceFile sources depth) (index + 2) (rest.drop 1) s' := by
              rw [spliceAtoms.eq_def]
              simp only [directive, ← entered]
              cases rest with
              | nil => rfl
              | cons b more => rfl
            by_cases present : target ∈ s.inlined
            · rw [step s (by rw [if_pos present])]
              have later := ih _ shorter (index + 2) (rest.drop 1) valid deep rfl
              obtain ⟨out, assembles, atoms⟩ := later.assembles
              exact ⟨⟨out, .again directive present assembles, atoms⟩, later.valid, later.more⟩
            · have known : target ∈ sources.map Prod.fst :=
                targets _ (mem_of_lookup_eq_some directive)
              obtain ⟨source, found⟩ := exists_lookup_of_mem known
              have valid₁ : IsInlined sources (target :: s.inlined) :=
                ⟨List.nodup_cons.mpr ⟨present, valid.nodup⟩, List.cons_subset.mpr ⟨known, valid.known⟩⟩
              have inside := adds target source { s with inlined := target :: s.inlined } found valid₁
                (by rw [List.length_cons]; omega)
              rw [step _ (by rw [if_neg present])]
              have more := inside.more
              rw [List.length_cons] at more
              have later := ih _ shorter (index + 2) (rest.drop 1) inside.valid (by omega) rfl
              obtain ⟨out, assembles, atoms⟩ := inside.assembles
              obtain ⟨out', assembles', atoms'⟩ := later.assembles
              refine ⟨⟨out ++ out', .entered directive present found assembles assembles', ?_⟩,
                later.valid, by have := later.more; omega⟩
              rw [atoms', atoms]
              simp

theorem addsFiles {sources : List (String × Source)} (closed : HasTargets sources) (depth : Nat) :
    AddsFiles sources depth := by
  induction depth with
  | zero =>
      intro path source s found valid deep
      have bound := valid.length_le
      omega
  | succ depth ih =>
      intro path source s found valid deep
      rw [spliceFile, found]
      exact ih.atoms path (closed _ (mem_of_lookup_eq_some found)) 0 source.atoms valid (by omega)

/-- If all that directives mean is there, then so is all that `splice` looks for, and it gives the atoms
of the program. -/
theorem assembled_splice {sources : List (String × Source)} (closed : HasTargets sources)
    {root : String} (rooted : root ∈ sources.map Prod.fst) :
    ∃ out, Assembled sources root out ∧ splice sources root = out.map Prod.snd := by
  obtain ⟨source, found⟩ := exists_lookup_of_mem rooted
  have valid : IsInlined sources [root] :=
    ⟨List.nodup_singleton _, List.cons_subset.mpr ⟨rooted, List.nil_subset _⟩⟩
  have added := addsFiles closed (sources.length + 1) root source ⟨[], [root]⟩ found valid (by simp)
  obtain ⟨out, assembles, atoms⟩ := added.assembles
  refine ⟨out, ⟨source, _, found, assembles⟩, ?_⟩
  rw [splice, atoms]
  simp

end DawnC
