import DawnC.Text.Quoted

set_option autoImplicit false

namespace DawnC

/-- What is wrong with the text of a reference. -/
inductive ReferenceFault where
  | missingRef
  | emptyRef
  | tooFewElements
  | badElement (element : String)
  | notAHost (host : String)
  deriving DecidableEq, Repr

namespace ReferenceFault

def message (text : String) (fault : ReferenceFault) : String :=
  "remote include " ++ text ++ ": " ++
    match fault with
    | missingRef => "missing @ref"
    | emptyRef => "empty ref"
    | tooFewElements => "expected host/owner/repo/file"
    | badElement element => "invalid path element " ++ Text.quote element
    | notAHost host => host ++ " is not a host"

end ReferenceFault

/-- Why a checkout does not give a file. -/
inductive CacheFault where
  | notCached (repo ref : String)
  | fileMissing (file repo ref : String)
  | isDirectory (file repo ref : String)
  | versionNotFound (version : String)
  deriving DecidableEq, Repr

namespace CacheFault

def message : CacheFault → String
  | notCached repo ref => "not cached: " ++ repo ++ "@" ++ ref
  | fileMissing file repo ref => file ++ " not found in " ++ repo ++ "@" ++ ref
  | isDirectory file repo ref => file ++ " in " ++ repo ++ "@" ++ ref ++ " is a directory"
  | versionNotFound version => "version not found: " ++ version

end CacheFault

end DawnC
