import DawnC.Build.Config
import DawnC.Sha256
import DawnC.World

set_option autoImplicit false

namespace DawnC

/-- The name of the generated C file. -/
def intermediateName : String := "main.c"

/-- A short name for a text; a backslash counts as a slash. -/
def shortHash (key : String) : String :=
  let slashed := key.toList.map fun c => if c = '\\' then '/' else c
  String.ofList ((Sha256.hexHash (Utf8.encode (String.ofList slashed))).take 12)

structure Workspace where
  /-- the source file, from the root -/
  input : String
  /-- the executable, from the root -/
  output : String
  hash : String
  dir : String
  sourcePath : String
  /-- where the compiler leaves the executable -/
  artifactPath : String
  deriving DecidableEq, Repr

namespace Workspace

/-- The workspace of a build, by the source file and the executable as paths from the root. -/
def ofAbsolute (config : BuildConfig) (input output : String) : Workspace :=
  let hash := shortHash (input ++ "\n" ++ output)
  let dir := Path.join [config.buildDir, hash]
  { input, output, hash, dir
    sourcePath := Path.join [dir, intermediateName]
    artifactPath := Path.join [dir, config.artifact] }

def ofPaths (config : BuildConfig) (s : Store) (input output : String) : Except Fault Workspace := do
  let input ← (s.absolute input).mapError (.wrap "resolving input path")
  let output ← (s.absolute output).mapError (.wrap "resolving output path")
  pure (ofAbsolute config input output)

def ensure (w : Workspace) : Action Unit :=
  Action.within ("creating workspace dir " ++ w.dir) (Action.files (FileAction.makeDirectories w.dir))

def writeSource (w : Workspace) (code : String) : Action Unit :=
  Action.files (FileAction.writeFile w.sourcePath (Utf8.encode code))

/-- Removes the generated file, which has to be there. -/
def removeSource (w : Workspace) : Action Unit := do
  match (← Action.store).find w.sourcePath with
  | .error _ => throw (.build (.sourceMissing w.sourcePath))
  | .ok _ => Action.files (FileAction.remove w.sourcePath)

def clean (w : Workspace) : Action Unit := Action.files (FileAction.removeTree w.dir)

def isThere (w : Workspace) (s : Store) : Bool := s.isDirectory w.dir

end Workspace

end DawnC
