import DawnC.Include.Source

set_option autoImplicit false

namespace DawnC

/-- Atoms put together so far, last first, and the files that are among them. -/
structure Splice where
  atoms : List Atom
  inlined : List String

/-- Adds the atoms of a file, of which the first has the index given; `enter` adds another file. -/
def spliceAtoms (includes : List (Nat × String)) (enter : String → Splice → Splice) (index : Nat) :
    List Atom → Splice → Splice
  | [], s => s
  | a :: rest, s =>
    match includes.lookup index, rest with
    | none, rest => spliceAtoms includes enter (index + 1) rest { s with atoms := a :: s.atoms }
    | some target, rest =>
      let s :=
        if target ∈ s.inlined then s
        else enter target { s with inlined := target :: s.inlined }
      match rest with
      | [] => s
      | _ :: rest => spliceAtoms includes enter (index + 2) rest s

/-- Adds a file with the files it includes. -/
def spliceFile (sources : List (String × Source)) : Nat → String → Splice → Splice
  | 0, _, s => s
  | depth + 1, path, s =>
    match sources.lookup path with
    | none => s
    | some source => spliceAtoms source.includes (spliceFile sources depth) 0 source.atoms s

/-- The atoms of a program. No file is entered below itself, so files are never nested deeper than
there are files. -/
def splice (sources : List (String × Source)) (root : String) : List Atom :=
  (spliceFile sources (sources.length + 1) root ⟨[], [root]⟩).atoms.reverse

/-- Numbers statements on from `stmt`; `previous` is the file and the old number of the atom before. -/
def renumberFrom (stmt : Int) (previous : Option (String × Int)) (done : List Atom) :
    List Atom → List Atom
  | [] => done.reverse
  | a :: rest =>
    let here := (a.file, a.stmt)
    let stmt := if previous = some here then stmt else stmt + 1
    renumberFrom stmt (some here) ({ a with stmt } :: done) rest

def renumber (atoms : List Atom) : List Atom := renumberFrom (-1) none [] atoms

end DawnC
