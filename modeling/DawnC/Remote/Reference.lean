import DawnC.Fault
import DawnC.Path

set_option autoImplicit false

namespace DawnC

structure Reference where
  /-- host, owner and name -/
  repo : String
  /-- the path inside the repository -/
  file : String
  /-- a tag, a branch or a commit -/
  ref : String
  deriving DecidableEq, Repr

namespace Reference

/-- An include path that names a remote file rather than a local one. -/
def looksRemote (target : String) : Bool :=
  if Path.isAbsolute target || target.toList.head? = some '.' then false
  else
    match Text.cutLast '@' target.toList with
    | none => false
    | some (before, _) =>
      !before.isEmpty && (before.takeWhile (· ≠ '/')).contains '.' && 3 ≤ before.count '/'

/-- An element that cannot stand in a reference. -/
def isBadElement (element : String) : Bool := element = "" || element = "." || element = ".."

def parse (text : String) : Except ReferenceFault Reference :=
  match Text.cutLast '@' text.toList with
  | none => .error .missingRef
  | some (_, []) => .error .emptyRef
  | some (before, ref) =>
    let elements := Path.elements (String.ofList before)
    if elements.length < 4 then .error .tooFewElements
    else
      match elements.find? isBadElement with
      | some element => .error (.badElement element)
      | none =>
        let host := elements.headD ""
        if !host.toList.contains '.' then .error (.notAHost host)
        else
          .ok
            { repo := String.intercalate "/" (elements.take 3)
              file := Path.join (elements.drop 3)
              ref := String.ofList ref }

/-- Where the repository is cloned from. -/
def url (r : Reference) : String := "https://" ++ r.repo ++ ".git"

def text (r : Reference) : String := r.repo ++ "/" ++ r.file ++ "@" ++ r.ref

end Reference

end DawnC
