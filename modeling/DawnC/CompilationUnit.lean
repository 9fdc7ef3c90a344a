import DawnC.Fault
import DawnC.Symbol

set_option autoImplicit false

namespace DawnC

/-- A broken rule and the index of the atom where it shows; the index may be that of the end. -/
structure Misstep where
  index : Nat
  violation : Violation
  deriving DecidableEq, Repr

/-- Adds a header unless it is there. -/
def addHeader (headers : List String) (header : String) : List String :=
  if header ∈ headers then headers else headers ++ [header]

structure CompilationUnit where
  /-- the root source file -/
  file : String
  atoms : List Atom := []
  symbols : SymbolTable := .empty
  /-- the C headers, each once, in the order they were added -/
  headers : List String := []
  /-- forward declarations of functions, in the order of their definitions -/
  prototypes : List String := []
  /-- the emitted lines of C -/
  lines : List String := []
  phase : Phase := .read

namespace CompilationUnit

def enter (u : CompilationUnit) (phase : Phase) : CompilationUnit := { u with phase }

def emit (u : CompilationUnit) (line : String) : CompilationUnit :=
  { u with lines := u.lines ++ [line] }

/-- The atom at an index, if the index is inside the sequence. -/
def atom? (u : CompilationUnit) (index : Int) : Option Atom :=
  if index < 0 then none else u.atoms[index.toNat]?

/-- A fault of the running phase at an atom; outside the sequence it points at its end. -/
def failAt (u : CompilationUnit) (index : Int) (cause : Fault) : Fault :=
  match u.atom? index with
  | some a => .phase u.phase a.file a.line index a.text (some cause)
  | none => .phase u.phase u.file 0 index "<end of input>" (some cause)

/-- A misstep as a fault of the running phase. -/
def failMisstep (u : CompilationUnit) (m : Misstep) : Fault :=
  u.failAt m.index (.violation m.violation)

/-- A fault met while the unit's phase runs. A missing source stays what it is. -/
def fail (u : CompilationUnit) (f : Fault) : Fault :=
  match f.missingSource? with
  | some path => .sourceNotFound path
  | none => f.inPhase u.phase

end CompilationUnit

/-- The unit after some work, or a fault with the unit as far as the work got. -/
abbrev Progress := Except (Fault × CompilationUnit) CompilationUnit

end DawnC
