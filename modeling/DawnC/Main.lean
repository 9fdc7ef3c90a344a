import DawnC.Cli.Session

set_option autoImplicit false

namespace DawnC

/-- Adds the entries of a directory, and what lies below them, to a store. -/
partial def gather (place : Location) (entries : Array IO.FS.DirEntry) (store : Store) : IO Store := do
  let mut store := store
  for entry in entries do
    let here := place ++ [entry.fileName]
    match (← entry.path.metadata).type with
    | .dir => store ← gather here (← entry.path.readDir) (store.insertDeep here .directory)
    | .file =>
      let bytes ← IO.FS.readBinFile entry.path
      store := store.insertDeep here (.file bytes.toList false)
    | _ => pure ()
  return store

/-- A working directory and nothing else. -/
def startIn (place : Location) : Store :=
  if usable : ∀ name ∈ place, IsUsableName name then
    { ({} : Store).insertDeep place .directory with cwd := place, usable }
  else {}

def pathOf (place : Location) : String := "/" ++ String.intercalate "/" place

/-- Writes the differences between two stores to the disk. -/
def writeBack (old new : Store) : IO Unit := do
  let deepFirst := old.entries.mergeSort fun a b => decide (b.1.length ≤ a.1.length)
  for (place, entry) in deepFirst do
    if (new.get? place).isNone then
      match entry with
      | .directory => IO.FS.removeDir (pathOf place)
      | .file .. => IO.FS.removeFile (pathOf place)
  let shallowFirst := new.entries.mergeSort fun a b => decide (a.1.length ≤ b.1.length)
  for (place, entry) in shallowFirst do
    if old.get? place ≠ some entry then
      match entry with
      | .directory => IO.FS.createDirAll (pathOf place)
      | .file contents _ => IO.FS.writeBinFile (pathOf place) ⟨contents.toArray⟩

/-- The variables that the compiler looks at. -/
def environment : IO Environment := do
  let names := ["DAWN_HOME", "DAWN_CC", "HOME"]
  let values ← names.filterMapM fun name => do return (← IO.getEnv name).map (name, ·)
  return ⟨values⟩

def noProcesses : Surroundings where
  remotes := { clone := fun _ => .error (.plain "repository not found") }
  toolchain := { interpret := fun _ _ _ => pure { failure := some .killed } }

end DawnC

open DawnC in
/-- Reads the files below the working directory and the compiler's own into a store, runs the command line on it
and writes back what changed. No process is started and nothing is cloned. -/
def main (arguments : List String) : IO UInt32 := do
  let cwd ← IO.currentDir
  let place := Path.names cwd.toString
  let environment ← environment
  let home := Path.absolute cwd.toString environment.dawnHome
  let mut store ← gather place (← cwd.readDir) (startIn place)
  let parent := cwd.join (Path.directory home)
  if !place.isPrefixOf (Path.names home) && (← parent.isDir) then
    let own := (← parent.readDir).filter fun entry => entry.fileName = (Path.names home).getLastD ""
    store ← gather (Path.names home).dropLast own store
  let (code, session) := ({ environment, around := noProcesses : Installation }).runLine store arguments
  writeBack store session.store
  (← IO.getStdout).putStr session.output
  (← IO.getStderr).putStr session.diagnostics
  return (code % 256).toNat.toUInt32
