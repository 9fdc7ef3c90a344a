import DawnC.Code
import DawnC.Include.Load

set_option autoImplicit false

namespace DawnC

/-- Work on a unit in a world; a failure carries the unit as far as the work got. -/
abbrev UnitAction := Attempt (Fault × CompilationUnit) World

namespace UnitAction

def tell (event : Event) : UnitAction Unit :=
  modify fun w => { w with events := w.events ++ [event] }

def enter (u : CompilationUnit) (phase : Phase) : UnitAction CompilationUnit := do
  tell (.phaseEntered phase)
  pure (u.enter phase)

/-- The unit after some work. A fault becomes one of the unit's phase. -/
def ofProgress : Progress → UnitAction CompilationUnit
  | .ok u => pure u
  | .error (fault, u) => throw (u.fail fault, u)

/-- Reads the unit's atoms. -/
def read (load : Action (List Atom)) (u : CompilationUnit) : UnitAction CompilationUnit := do
  let (result, world) := load.run (← get)
  set world
  match result with
  | .ok atoms => pure { u with atoms }
  | .error fault => throw (u.fail fault, u)

end UnitAction

open UnitAction in
/-- The translated unit of the program that `load` reads from `file`. -/
def transpileWith (load : Action (List Atom)) (file : String) : UnitAction CompilationUnit := do
  let u ← enter { file } .read
  let u ← read load u
  tell (.sourceLoaded file u.atoms.length)
  let u ← enter u .functionScan
  let u ← ofProgress u.scanFunctions
  tell (.functionsFound (u.symbols.names .function))
  let u ← enter u .importScan
  let u := u.resolveImports
  tell (.importsFound u.headers)
  tell (.phaseEntered .convert)
  let u ← ofProgress u.translate
  let u ← enter u .writeC
  tell (.codeGenerated u.lines.length u.headers.length)
  pure u

/-- The translated unit of a source file. -/
def transpileUnit (fetcher : Option Fetcher) (file : String) : UnitAction CompilationUnit :=
  transpileWith (load fetcher file) file

/-- The C program of a source file. -/
def transpile (fetcher : Option Fetcher) (file : String) : Action String := do
  let (result, world) := (transpileUnit fetcher file).run (← get)
  set world
  match result with
  | .ok u => pure u.code
  | .error (fault, _) => throw fault

end DawnC
