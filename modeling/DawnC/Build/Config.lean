import DawnC.Path
import DawnC.Store.Actions

set_option autoImplicit false

namespace DawnC

/-- Environment variables by name. One that is not set counts as empty. -/
structure Environment where
  bindings : List (String × String) := []

namespace Environment

def get (env : Environment) (name : String) : String := (env.bindings.lookup name).getD ""

/-- The directory for everything the compiler keeps. -/
def dawnHome (env : Environment) : String :=
  if env.get "DAWN_HOME" ≠ "" then env.get "DAWN_HOME"
  else if env.get "HOME" ≠ "" then Path.join [env.get "HOME", ".dawn"]
  else Path.join [".", ".dawn"]

/-- The directory for remote files. -/
def cacheDir (env : Environment) : String :=
  if env.get "DAWN_HOME" ≠ "" then Path.join [env.get "DAWN_HOME", "pkg"]
  else if env.get "HOME" ≠ "" then Path.join [env.get "HOME", ".dawn", "pkg"]
  else Path.join [".", ".dawn", "pkg"]

end Environment

structure BuildConfig where
  home : String
  /-- where workspaces are made -/
  buildDir : String
  /-- where remote files are kept -/
  cacheDir : String
  compiler : String
  /-- given to the compiler after the source file -/
  flags : List String
  /-- the file that the compiler writes when no output is named -/
  artifact : String
  /-- how often the artifact is looked for -/
  attempts : Nat
  /-- milliseconds before the second look, doubled for each further one -/
  firstDelay : Nat
  deriving DecidableEq, Repr

namespace BuildConfig

def ofEnvironment (env : Environment) : BuildConfig where
  home := env.dawnHome
  buildDir := Path.join [env.dawnHome, "build"]
  cacheDir := Path.join [env.dawnHome, "pkg"]
  compiler := if env.get "DAWN_CC" ≠ "" then env.get "DAWN_CC" else "gcc"
  flags := ["-w"]
  artifact := "a.out"
  attempts := 5
  firstDelay := 50

def ensureDirectories (c : BuildConfig) : FileAction Unit := do
  FileAction.makeDirectories c.home
  FileAction.makeDirectories c.buildDir
  FileAction.makeDirectories c.cacheDir

/-- Removes the workspaces of all builds. -/
def cleanWorkspaces (c : BuildConfig) : FileAction Unit := FileAction.removeTree c.buildDir

end BuildConfig

end DawnC
