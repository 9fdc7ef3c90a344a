set_option autoImplicit false

namespace DawnC

namespace FileFault

inductive Reason where
  | notFound
  | notDirectory
  | isDirectory
  | notEmpty
  | alreadyExists
  | invalid
  | nameTooLong
  | busy
  | denied
  | crossDevice
  deriving DecidableEq, Repr

def Reason.text : Reason → String
  | notFound => "no such file or directory"
  | notDirectory => "not a directory"
  | isDirectory => "is a directory"
  | notEmpty => "directory not empty"
  | alreadyExists => "file exists"
  | invalid => "invalid argument"
  | nameTooLong => "file name too long"
  | busy => "device or resource busy"
  | denied => "permission denied"
  | crossDevice => "invalid cross-device link"

end FileFault

/-- A failed operation, with the path as it was given. -/
structure FileFault where
  operation : String
  path : String
  reason : FileFault.Reason
  deriving DecidableEq, Repr

namespace FileFault

def message (f : FileFault) : String :=
  f.operation ++ " " ++ f.path ++ ": " ++ f.reason.text

end FileFault

end DawnC
