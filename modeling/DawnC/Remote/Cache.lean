import DawnC.Remote.Reference
import DawnC.World

set_option autoImplicit false

namespace DawnC

/-- The extension of the source files that the cache keeps. -/
def sourceExtension : String := ".dawn"

/-- One directory for a repository at a ref, with the source files of its tree. -/
structure Cache where
  dir : String
  deriving DecidableEq, Repr

namespace Cache

/-- The directory of a checkout. -/
def checkoutPath (c : Cache) (repo ref : String) : String := Path.join [c.dir, repo ++ "@" ++ ref]

def holds (c : Cache) (s : Store) (repo ref : String) : Bool := s.isDirectory (c.checkoutPath repo ref)

/-- The path of a remote file in its checkout. -/
def resolve (c : Cache) (s : Store) (r : Reference) : Except CacheFault String :=
  if !c.holds s r.repo r.ref then .error (.notCached r.repo r.ref)
  else
    let path := Path.join [c.checkoutPath r.repo r.ref, r.file]
    match s.find path with
    | .error _ => .error (.fileMissing r.file r.repo r.ref)
    | .ok .directory => .error (.isDirectory r.file r.repo r.ref)
    | .ok (.file ..) => .ok path

def ensure (c : Cache) : FileAction Unit := FileAction.makeDirectories c.dir

/-- Copies one file to its place under `destination`, if it is a source file. -/
def copyFile (view : Store → Store) (destination path relative : String) : FileAction Unit := do
  if Path.extension path = sourceExtension then
    let copy := Path.join [destination, relative]
    FileAction.makeDirectories (Path.directory copy)
    match (view (← get)).readFile path with
    | .error fault => throw fault
    | .ok contents => FileAction.writeFile copy contents

/-- The names in the directory at `path`, none if there is no such place. -/
def namesAt (s : Store) (path : String) : Except FileFault (List String) :=
  match s.locate path with
  | .ok (place, _) =>
    if (s.rule place).unreadable then .error ⟨"open", path, .denied⟩ else .ok (s.children place)
  | .error _ => .ok []

/-- A directory that is left out of the cache. -/
def isHidden (name : String) : Bool := name.toList.head? = some '.'

/-- Reads the names in the directory at `path`. -/
def readNames (view : Store → Store) (path : String) : FileAction (List String) := do
  match namesAt (view (← get)) path with
  | .error fault => throw fault
  | .ok names => pure names

/-- Copies the source files below the directory at `path`, names in order, hidden directories left
out. A directory's names are read when it is entered, and those of a hidden one are read too. -/
def copyBelow (view : Store → Store) (destination : String) :
    Nat → String → String → FileAction Unit
  | 0, _, _ => pure ()
  | depth + 1, path, relative => do
    (← readNames view path).forM fun name => do
      let path := Path.join [path, name]
      let relative := Path.join [relative, name]
      match (view (← get)).find path with
      | .error reason => throw ⟨"lstat", path, reason⟩
      | .ok .directory =>
        if isHidden name then
          let _ ← readNames view path
          pure ()
        else copyBelow view destination depth path relative
      | .ok (.file ..) => copyFile view destination path relative

/-- Copies the source files of a tree into the checkout's directory. `view` is where the tree is
looked up: the same files as they are at each step, or a tree apart. -/
def storeTree (c : Cache) (view : Store → Store) (repo ref source : String) : Action Unit := do
  let destination := c.checkoutPath repo ref
  Action.within "failed to create cache directory"
    (Action.files (FileAction.makeDirectories destination))
  Action.files do
    match (view (← get)).find source with
    | .error reason => throw ⟨"lstat", source, reason⟩
    | .ok .directory => copyBelow view destination pathLimit source "."
    | .ok (.file ..) => copyFile view destination source "."

def remove (c : Cache) (repo ref : String) : FileAction Unit :=
  FileAction.removeTree (c.checkoutPath repo ref)

def clean (c : Cache) : FileAction Unit := FileAction.removeTree c.dir

end Cache

end DawnC
