import DawnC.Fault.Build
import DawnC.Store.Lookup

set_option autoImplicit false

namespace DawnC

/-- What a process wrote and how it ended. -/
structure ProcessRun where
  output : String := ""
  diagnostics : String := ""
  failure : Option ProcessFailure := none

/-- A program: its arguments and its working directory, then what it does to the files. -/
abbrev Program := List String → String → StateM Store ProcessRun

structure Toolchain where
  commands : List (String × Program) := []
  /-- what an executable file of these contents does -/
  interpret : Bytes → Program

namespace Toolchain

/-- A process that never started. -/
def refused (failure : ProcessFailure) : StateM Store ProcessRun :=
  pure { failure := some failure }

/-- Starts an executable file. A relative path is looked up in the working directory of the process. -/
def startFile (t : Toolchain) (path : String) (arguments : List String) (dir : String) :
    StateM Store ProcessRun := do
  let place := if Path.isAbsolute path then path else dir ++ "/" ++ path
  if arguments.any fun a => a.toList.contains '\x00' then
    refused (.notStarted path .invalid)
  else
    match (← get).find place with
    | .error reason => refused (.notStarted path reason)
    | .ok (.file contents true) => t.interpret contents arguments dir
    | .ok _ => refused (.notStarted path .denied)

/-- Runs a program in a directory, which needs the working directory if it is relative. -/
def runIn (dir : String) (program : StateM Store ProcessRun) : StateM Store ProcessRun := do
  if Path.isAbsolute dir || (← get).hasWorkingDirectory then program
  else refused .noWorkingDirectory

/-- Starts a command by name or by path. -/
def start (t : Toolchain) (command : String) (arguments : List String) (dir : String) :
    StateM Store ProcessRun :=
  if command = "" then refused .noCommand
  else if command = "/" then refused (.unusable command .isDirectory)
  else if command.toList.contains '/' then runIn dir (t.startFile command arguments dir)
  else
    match t.commands.lookup command with
    | none => refused (.notOnPath command)
    | some program => runIn dir (program arguments dir)

end Toolchain

end DawnC
