import DawnC.Build
import DawnC.Cli.Invocation
import DawnC.Cli.Report

set_option autoImplicit false

namespace DawnC

structure VersionInfo where
  version : String := "dev"
  commit : String := "unknown"
  date : String := "unknown"
  deriving DecidableEq, Repr

namespace VersionInfo

def text (v : VersionInfo) : String :=
  "DawnLang version " ++ v.version ++ "\n" ++
    (if v.commit = "unknown" then "" else "  Git commit: " ++ v.commit ++ "\n") ++
    (if v.date = "unknown" then "" else "  Build date: " ++ v.date ++ "\n")

end VersionInfo

/-- What surrounds a command line. -/
structure Installation where
  environment : Environment
  around : Surroundings
  version : VersionInfo := {}

/-- The files, and what was printed so far. -/
structure Session where
  store : Store
  /-- shows the debug log -/
  debug : Bool := false
  output : String := ""
  diagnostics : String := ""

abbrev SessionAction := Attempt Fault Session

namespace SessionAction

def print (text : String) : SessionAction Unit :=
  modify fun s => { s with output := s.output ++ text }

def warn (text : String) : SessionAction Unit :=
  modify fun s => { s with diagnostics := s.diagnostics ++ text }

/-- Acts on the files, and logs what is told. -/
def act {α : Type} (action : Action α) : SessionAction α := do
  let s ← get
  let (result, world) := action.run { store := s.store }
  let shown := world.events.filter fun e => s.debug || e.isWarning
  set { s with store := world.store, diagnostics := s.diagnostics ++ String.join (shown.map Event.line) }
  match result with
  | .ok a => pure a
  | .error fault => throw fault

end SessionAction

namespace Installation

def config (i : Installation) : BuildConfig := .ofEnvironment i.environment

open SessionAction in
/-- Builds a program and runs it in the working directory. Its exit code is passed on. -/
def run (i : Installation) (input output : String) (arguments : List String) : SessionAction Unit := do
  act (i.config.build i.around input output)
  let path ← act (Action.ofExcept ((← get).store.absolute output))
  let process ← act do
    Action.tell (.programStarted path arguments)
    Action.process (i.around.toolchain.start path arguments (← Action.store).cwdPath)
  print process.output
  warn process.diagnostics
  match process.failure with
  | none => pure ()
  | some failure =>
    match failure.exitCode? with
    | some code => throw (.exit code)
    | none => throw (.process failure)

open SessionAction in
/-- Translates a program and prints the code or writes it to a file. -/
def transpile (i : Installation) (input output : String) : SessionAction Unit := do
  let code ← act (i.config.transpile i.around input)
  if output = "" then print code
  else
    act (Action.within ("writing " ++ output)
      (Action.files (FileAction.writeFile output (Utf8.encode code))))
    print ("Generated C code saved to " ++ output ++ "\n")

open SessionAction in
def clean (i : Installation) (withCache : Bool) : SessionAction Unit := do
  print "Cleaning all build workspaces...\n"
  act (Action.files i.config.cleanWorkspaces)
  if withCache then
    print "Cleaning include cache...\n"
    act (Action.files (⟨i.config.cacheDir⟩ : Cache).clean)
  print "Done.\n"

def usage : String :=
  "Usage:\n" ++
    "  dawn build <input.dawn> <output>\n" ++
    "  dawn run <input.dawn> <output> [-- args...]\n" ++
    "  dawn transpile <input.dawn> [-o file]\n" ++
    "  dawn clean [--cache]\n" ++
    "  dawn version\n"

open SessionAction in
def execute (i : Installation) : Command → SessionAction Unit
  | .build input output => do
    act (i.config.build i.around input output)
    print ("Built: " ++ output ++ "\n")
  | .run input output arguments => i.run input output arguments
  | .transpile input output => i.transpile input output
  | .clean withCache => i.clean withCache
  | .version => print i.version.text
  | .help => print usage

/-- Runs a command line from its arguments to its exit code. -/
def runLine (i : Installation) (store : Store) (arguments : List String) : Int × Session :=
  match Invocation.parse arguments with
  | .error fault =>
    let report := (Fault.usage fault).report false
    (report.code, { store, diagnostics := report.text })
  | .ok invocation =>
    match (i.execute invocation.command).run { store, debug := invocation.debug } with
    | (.ok _, s) => (0, s)
    | (.error fault, s) =>
      let report := fault.report invocation.debug
      (report.code, { s with diagnostics := s.diagnostics ++ report.text })

end Installation

end DawnC
