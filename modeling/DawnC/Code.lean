import DawnC.Translator

set_option autoImplicit false

namespace DawnC

/-- Lines, each with its newline. -/
def lineText (lines : List String) : String :=
  String.join (lines.map (· ++ "\n"))

namespace CompilationUnit

def code (u : CompilationUnit) : String :=
  lineText (u.headers.map ("#include " ++ ·)) ++ "\n" ++
    (if u.prototypes.isEmpty then "" else lineText u.prototypes ++ "\n") ++
    lineText u.lines

/-- Analyses and translates the unit's atoms. -/
def convert (u : CompilationUnit) : Progress :=
  match u.analyze with
  | .error e => .error e
  | .ok u =>
    match u.translate with
    | .error e => .error e
    | .ok u => .ok (u.enter .writeC)

theorem convert_eq (u : CompilationUnit) :
    u.convert = u.analyze >>= fun v => v.translate >>= fun w => pure (w.enter .writeC) := by
  unfold convert
  cases u.analyze with
  | error e => rfl
  | ok v =>
      dsimp only
      show _ = v.translate >>= fun w => pure (w.enter .writeC)
      cases v.translate <;> rfl

end CompilationUnit

end DawnC
