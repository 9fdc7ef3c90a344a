import DawnC.Fault.File
import DawnC.Text.Quoted

set_option autoImplicit false

namespace DawnC

/-- Why a process gave no success. -/
inductive ProcessFailure where
  | noCommand
  | notOnPath (name : String)
  | unusable (name : String) (reason : FileFault.Reason)
  /-- it was to start in a relative directory, and the working directory was removed -/
  | noWorkingDirectory
  | notStarted (path : String) (reason : FileFault.Reason)
  | exited (status : Nat)
  | killed
  deriving DecidableEq, Repr

namespace ProcessFailure

def message : ProcessFailure → String
  | noCommand => "exec: no command"
  | notOnPath name => "exec: " ++ Text.quote name ++ ": executable file not found in $PATH"
  | unusable name reason => "exec: " ++ Text.quote name ++ ": " ++ reason.text
  | noWorkingDirectory => "getwd: no such file or directory"
  | notStarted path reason => FileFault.message ⟨"fork/exec", path, reason⟩
  | exited status => "exit status " ++ toString status
  | killed => "signal: killed"

/-- The exit code of a process that did start. -/
def exitCode? : ProcessFailure → Option Int
  | exited status => some status
  | killed => some (-1)
  | _ => none

end ProcessFailure

inductive BuildFault where
  | compilerFailed (compiler : String) (failure : ProcessFailure) (diagnostics : String)
  | noArtifact (name : String)
  | sourceMissing (path : String)
  deriving DecidableEq, Repr

namespace BuildFault

def message : BuildFault → String
  | compilerFailed compiler failure diagnostics =>
    compiler ++ ": " ++ failure.message ++
      if diagnostics = "" then "" else "\n" ++ diagnostics
  | noArtifact name => "compiler did not produce " ++ name
  | sourceMissing path => "intermediate file " ++ path ++ " is missing"

end BuildFault

end DawnC
