import DawnC.Fault

set_option autoImplicit false

namespace DawnC

structure Report where
  code : Int
  text : String
  deriving DecidableEq, Repr

namespace Fault

/-- The first line for a fault of a known kind. -/
def headline? (f : Fault) : Option String :=
  match f.missingSource? with
  | some _ => some "ERROR: File cannot be found\n"
  | none => f.phaseCode?.map fun code => "ERROR CODE: " ++ code ++ "\n"

def report (f : Fault) (detailed : Bool) : Report :=
  match f.exitCode? with
  | some code => ⟨code, ""⟩
  | none =>
    match f.headline? with
    | some line => ⟨1, line ++ if detailed then f.message ++ "\n" else ""⟩
    | none => ⟨1, "Error: " ++ f.message ++ "\n"⟩

end Fault

end DawnC
