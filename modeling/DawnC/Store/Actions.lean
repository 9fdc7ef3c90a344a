import DawnC.Attempt
import DawnC.Store.Lookup

set_option autoImplicit false

namespace DawnC

/-- An operation on the files. -/
abbrev FileAction := Attempt FileFault Store

namespace FileAction

open FileFault (Reason)

/-- Where `path` leads, for an operation of this name. -/
def target (operation path : String) : FileAction Target := do
  match (← get).target path with
  | .ok target => pure target
  | .error reason => throw ⟨operation, path, reason⟩

def makeDirectory (path : String) : FileAction Unit := do
  match ← target "mkdir" path with
  | .self _ _ => throw ⟨"mkdir", path, .alreadyExists⟩
  | .named parent name _ =>
    let place := parent ++ [name]
    if ((← get).get? place).isSome then throw ⟨"mkdir", path, .alreadyExists⟩
    if ((← get).rule place).unwritable then throw ⟨"mkdir", path, .denied⟩
    modify (·.insert place .directory)

/-- Makes a directory unless it is there. -/
def ensureDirectory (path : String) : FileAction Unit := do
  match (← get).find path with
  | .ok .directory => pure ()
  | .ok (.file ..) => throw ⟨"mkdir", path, .notDirectory⟩
  | .error _ =>
    tryCatch (makeDirectory path) fun fault => do
      if (← get).isDirectory path then pure () else throw fault

/-- Makes a directory and those above it that are missing. -/
def makeDirectories (path : String) : FileAction Unit := do
  (Path.lineage path).forM ensureDirectory
  ensureDirectory path

/-- Writes a file. An old one keeps its mode, a new one is `executable` or not. -/
def writeFileAs (executable : Bool) (path : String) (contents : Bytes) : FileAction Unit := do
  match ← target "open" path with
  | .self _ _ => throw ⟨"open", path, .isDirectory⟩
  | .named parent name slash =>
    let place := parent ++ [name]
    if slash || (← get).get? place = some .directory then throw ⟨"open", path, .isDirectory⟩
    if ((← get).rule place).unwritable then throw ⟨"open", path, .denied⟩
    match (← get).get? place with
    | some (.file _ old) => modify (·.insert place (.file contents old))
    | _ => modify (·.insert place (.file contents executable))

def writeFile (path : String) (contents : Bytes) : FileAction Unit :=
  writeFileAs false path contents

def readFile (path : String) : FileAction Bytes := do
  match (← get).readFile path with
  | .ok contents => pure contents
  | .error fault => throw fault

/-- Removes a file or an empty directory. -/
def remove (path : String) : FileAction Unit := do
  match ← target "remove" path with
  | .self _ .root => throw ⟨"remove", path, .busy⟩
  | .self _ .here => throw ⟨"remove", path, .invalid⟩
  | .self _ .above => throw ⟨"remove", path, .notEmpty⟩
  | .named parent name slash =>
    let place := parent ++ [name]
    match (← get).get? place with
    | none => throw ⟨"remove", path, .notFound⟩
    | some entry =>
      if ((← get).rule place).stays then throw ⟨"remove", path, .denied⟩
      match entry with
      | .file .. =>
        if slash then throw ⟨"remove", path, .notDirectory⟩ else modify (·.erase place)
      | .directory =>
        if ((← get).children place).isEmpty then modify (·.erase place)
        else throw ⟨"remove", path, .notEmpty⟩

def removeIfExists (path : String) : FileAction Unit :=
  tryCatch (remove path) fun fault =>
    if fault.reason = .notFound then pure () else throw fault

/-- The directory part and the last name of a cleaned path. -/
def splitLast (path : String) : String × String :=
  match Text.cutLast '/' path.toList with
  | none => (".", path)
  | some ([], name) => ("/", String.ofList name)
  | some (before, name) => (String.ofList before, String.ofList name)

/-- Removes what is called `name` in the directory at `place`, with all that lies below it. The fault is that
of the first entry that cannot be removed. -/
def removeEntry (place : Location) (path name : String) : FileAction Unit := do
  if name.toList.contains '\x00' then throw ⟨"unlinkat", path, .invalid⟩
  if nameLimit < name.utf8ByteSize then throw ⟨"unlinkat", path, .nameTooLong⟩
  let root := place ++ [name]
  let stuck := (← get).stuckBelow root
  modify (·.eraseTree root)
  match stuck with
  | [] => pure ()
  | first :: _ =>
    throw ⟨"unlinkat", String.intercalate "/" (path :: first.drop root.length), .denied⟩

/-- Removes whatever is at a path, as far as it can be removed. Nothing there is no fault. -/
def removeTree (path : String) : FileAction Unit := do
  if path = "" then return
  if path = "." || (Path.elements path).getLast? = some "." then
    throw ⟨"RemoveAll", path, .invalid⟩
  tryCatch (remove path) fun fault => do
    if fault.reason = .notFound then return
    let (parent, name) := splitLast path
    let whole := parent ++ "/" ++ name
    match (← get).locate parent with
    | .error .notFound => pure ()
    | .error reason => throw ⟨"open", parent, reason⟩
    | .ok (_, .file ..) => throw ⟨"unlinkat", whole, .notDirectory⟩
    | .ok (place, .directory) => removeEntry place whole name

/-- Moves a file over a file or to a free place of the same device. -/
def rename (source destination : String) : FileAction Unit := do
  match ← target "rename" source with
  | .self _ _ => throw ⟨"rename", source, .busy⟩
  | .named parent name _ =>
    let origin := parent ++ [name]
    match (← get).get? origin, ← target "rename" destination with
    | none, _ => throw ⟨"rename", source, .notFound⟩
    | some .directory, _ => throw ⟨"rename", source, .isDirectory⟩
    | some (.file ..), .self _ _ => throw ⟨"rename", destination, .alreadyExists⟩
    | some (.file contents executable), .named parent name slash =>
      let place := parent ++ [name]
      if slash then throw ⟨"rename", destination, .notDirectory⟩
      let s ← get
      if s.get? place = some .directory then throw ⟨"rename", destination, .alreadyExists⟩
      if s.device? origin ≠ s.device? place then throw ⟨"rename", source, .crossDevice⟩
      if (s.rule origin).stays || s.refusesMove place then throw ⟨"rename", source, .denied⟩
      set ((s.erase origin).insert place (.file contents executable))

/-- Moves a file, by copying it where it cannot be renamed. -/
def moveFile (source destination : String) : FileAction Unit :=
  tryCatch (rename source destination) fun _ => do
    let contents ← readFile source
    writeFileAs true destination contents
    remove source

end FileAction

end DawnC
