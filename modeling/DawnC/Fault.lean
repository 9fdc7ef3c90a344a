import DawnC.Fault.Build
import DawnC.Fault.File
import DawnC.Fault.Remote
import DawnC.Fault.Usage
import DawnC.Fault.Violation
import DawnC.Phase

set_option autoImplicit false

namespace DawnC

/-- A tree of faults: one may wrap another, a phase fault holds its cause, and several can be collected. -/
inductive Fault where
  | plain (message : String)
  | violation (violation : Violation)
  | file (fault : FileFault)
  | lineTooLong
  | reference (text : String) (fault : ReferenceFault)
  | cache (fault : CacheFault)
  | build (fault : BuildFault)
  | process (failure : ProcessFailure)
  | usage (fault : UsageFault)
  /-- an include directive with nothing between its quotes -/
  | emptyInclude
  | includeIsDirectory (target : String)
  | noFetcher (target : String)
  | includeNotFound (target : String)
  | includesTooDeep
  /-- a relative path, and the working directory was removed -/
  | noWorkingDirectory
  | cycle (paths : List String)
  | sourceNotFound (path : String)
  /-- a program that was run ended with this status -/
  | exit (code : Int)
  | wrap (context : String) (cause : Fault)
  /-- a fault of a phase, at an atom if `atom` is not empty -/
  | phase (phase : Phase) (file : String) (line index : Int) (atom : String) (cause : Option Fault)
  | multi (members : List (Option Fault))

namespace Fault

instance : Inhabited Fault := ⟨plain ""⟩

/-- Where a phase fault points. -/
def placeText (file : String) (line : Int) : String :=
  if file ≠ "" then
    " " ++ file ++ if 0 < line then ":" ++ toString line else ""
  else if 0 < line then " line " ++ toString line
  else ""

def atomText (index : Int) (atom : String) : String :=
  if atom ≠ "" then " at atom " ++ toString index ++ " " ++ Text.quote atom else ""

/-- The text of a phase fault without its cause. -/
def phaseText (phase : Phase) (file : String) (line index : Int) (atom : String) : String :=
  "[PhaseError] " ++ phase.code ++ " (" ++ phase.name ++ ")" ++ placeText file line ++
    atomText index atom

mutual

def message : Fault → String
  | plain message => message
  | violation v => v.message
  | file f => f.message
  | lineTooLong => "bufio.Scanner: token too long"
  | reference text f => f.message text
  | cache f => f.message
  | build f => f.message
  | process f => f.message
  | usage f => f.message
  | emptyInclude => "empty include path"
  | includeIsDirectory target => "include " ++ target ++ " is a directory"
  | noFetcher target => "remote include " ++ target ++ ": no fetcher configured"
  | includeNotFound target => "included file not found: " ++ target
  | includesTooDeep => "includes are nested too deeply"
  | noWorkingDirectory => "getwd: no such file or directory"
  | cycle paths => "include cycle detected: " ++ String.intercalate " -> " paths
  | sourceNotFound path => "[SourceNotFound] " ++ path
  | exit code => "program exited with status " ++ toString code
  | wrap context cause => context ++ ": " ++ cause.message
  | phase p source line index atom none => phaseText p source line index atom
  | phase p source line index atom (some cause) =>
    phaseText p source line index atom ++ ": " ++ cause.message
  | multi members => toString members.length ++ " error(s) occurred:\n" ++ memberText members

/-- The members of a collection, one a line. -/
def memberText : List (Option Fault) → String
  | [] => ""
  | none :: rest => "- <nil>\n" ++ memberText rest
  | some f :: rest => "- " ++ f.message ++ "\n" ++ memberText rest

end

mutual

/-- The first answer of `select` in the tree, each fault asked before those in it. -/
def find? {α : Type} (select : Fault → Option α) : Fault → Option α
  | wrap context cause => (select (wrap context cause)).or (cause.find? select)
  | phase p source line index atom none => select (phase p source line index atom none)
  | phase p source line index atom (some cause) =>
    (select (phase p source line index atom (some cause))).or (cause.find? select)
  | multi members => (select (multi members)).or (findIn? select members)
  | f => select f

def findIn? {α : Type} (select : Fault → Option α) : List (Option Fault) → Option α
  | [] => none
  | none :: rest => findIn? select rest
  | some f :: rest => (f.find? select).or (findIn? select rest)

end

/-- The first phase fault in the tree. -/
def phase? : Fault → Option Fault :=
  find? fun
    | f@(phase ..) => some f
    | _ => none

/-- The code of the first phase fault in the tree. -/
def phaseCode? : Fault → Option String :=
  find? fun
    | phase p .. => some p.code
    | _ => none

/-- The path of the first missing source in the tree. -/
def missingSource? : Fault → Option String :=
  find? fun
    | sourceNotFound path => some path
    | _ => none

/-- The status of the first ended program in the tree. -/
def exitCode? : Fault → Option Int :=
  find? fun
    | exit code => some code
    | _ => none

/-- The category of a fault that has one: a collection takes that of its first member. -/
def category? : Fault → Option String
  | sourceNotFound _ => some "SourceNotFound"
  | phase .. => some "PhaseError"
  | multi [] => some "MultiError"
  | multi (none :: _) => some "MultiError"
  | multi (some f :: _) => some (f.category?.getD "MultiError")
  | _ => none

/-- A fault of `p`, unless the tree already holds a phase fault: then it is that one. -/
def inPhase (p : Phase) (f : Fault) : Fault :=
  f.phase?.getD (phase p "" 0 0 "" (some f))

/-- The collected faults, if there are any. -/
def collect : List Fault → Option Fault
  | [] => none
  | faults => some (multi (faults.map some))

end Fault

end DawnC
