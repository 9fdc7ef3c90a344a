import DawnC.Fault.File
import DawnC.Store

set_option autoImplicit false

namespace DawnC

/-- A path of this many bytes cannot be used. -/
def pathLimit : Nat := 4096

/-- The kinds of last name that name a directory by itself. -/
inductive Dots where
  | root
  | here
  | above
  deriving DecidableEq, Repr

/-- Where a path leads, up to its last name. -/
inductive Target where
  | self (place : Location) (dots : Dots)
  | named (parent : Location) (name : String) (slash : Bool)
  deriving DecidableEq, Repr

namespace Store

open FileFault (Reason)

/-- A path that can be used at all, and where it starts. -/
def start (s : Store) (path : String) : Except Reason Location :=
  if path.toList.contains '\x00' then .error .invalid
  else if path = "" then .error .notFound
  else if pathLimit ≤ path.utf8ByteSize then .error .nameTooLong
  else .ok (if Path.isAbsolute path then [] else s.cwd)

/-- Follows names through directories. -/
def descend (s : Store) (place : Location) : List String → Except Reason Location
  | [] => .ok place
  | name :: rest =>
    if name = "." then s.descend place rest
    else if name = ".." then s.descend place.dropLast rest
    else if s.get? place ≠ some .directory then .error .notFound
    else if nameLimit < name.utf8ByteSize then .error .nameTooLong
    else
      match s.get? (place ++ [name]) with
      | some .directory => s.descend (place ++ [name]) rest
      | some (.file ..) => .error .notDirectory
      | none => .error .notFound

/-- Where a path leads. A working directory that was removed can still be named, and left by `..`, but it has
no names. -/
def target (s : Store) (path : String) : Except Reason Target := do
  let start ← s.start path
  let names := Path.names path
  match names.getLast? with
  | none => pure (.self start .root)
  | some last =>
    let parent ← s.descend start names.dropLast
    if last = "." then pure (.self parent .here)
    else if last = ".." then pure (.self parent.dropLast .above)
    else if s.get? parent ≠ some .directory then throw .notFound
    else if nameLimit < last.utf8ByteSize then throw .nameTooLong
    else pure (.named parent last (Path.hasTrailingSlash path))

/-- The place that a path names and what is there. A file cannot be named with a slash after it. -/
def locate (s : Store) (path : String) : Except Reason (Location × Entry) := do
  match ← s.target path with
  | .self place _ => pure (place, .directory)
  | .named parent name slash =>
    match s.get? (parent ++ [name]) with
    | none => throw .notFound
    | some .directory => pure (parent ++ [name], .directory)
    | some (.file contents executable) =>
      if slash then throw .notDirectory else pure (parent ++ [name], .file contents executable)

/-- What a path names. -/
def find (s : Store) (path : String) : Except Reason Entry := (s.locate path).map (·.2)

def isDirectory (s : Store) (path : String) : Bool :=
  match s.find path with
  | .ok .directory => true
  | _ => false

/-- The path names a file. -/
def isFile (s : Store) (path : String) : Bool :=
  match s.find path with
  | .ok (.file ..) => true
  | _ => false

def readFile (s : Store) (path : String) : Except FileFault Bytes :=
  match s.locate path with
  | .error reason => .error ⟨"open", path, reason⟩
  | .ok (place, entry) =>
    if (s.rule place).unreadable then .error ⟨"open", path, .denied⟩
    else
      match entry with
      | .directory => .error ⟨"read", path, .isDirectory⟩
      | .file contents _ => .ok contents

end Store

end DawnC
