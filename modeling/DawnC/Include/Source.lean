import DawnC.Atom.Lexer
import DawnC.Include.Graph
import DawnC.Remote.Fetcher
import DawnC.Store.Lines

set_option autoImplicit false

namespace DawnC

/-- A file's atoms, and the file that each include directive means, by the directive's index. -/
structure Source where
  atoms : List Atom
  includes : List (Nat × String) := []

/-- The files met so far. -/
structure Discovery where
  graph : IncludeGraph
  sources : List (String × Source) := []

namespace Discovery

def addSource (d : Discovery) (path : String) (atoms : List Atom) : Discovery :=
  { d with sources := d.sources ++ [(path, { atoms })] }

/-- Records that the directive at `index` of `path` means `target`. -/
def addInclude (d : Discovery) (path : String) (index : Nat) (target : String) : Discovery :=
  { graph := (d.graph.addNode target).addEdge path target
    sources := d.sources.map fun s =>
      if s.1 = path then (s.1, { s.2 with includes := s.2.includes ++ [(index, target)] }) else s }

end Discovery

/-- The text of an include path without the quotes at its ends. -/
def unquoted (text : String) : String :=
  String.ofList (((text.toList.dropWhile (· = '"')).reverse.dropWhile (· = '"')).reverse)

/-- The path of the file that an include directive in the file `including` means, and the name under
which its atoms are reported. -/
def resolveTarget (fetcher : Option Fetcher) (including target : String) : Action (String × String) := do
  if target = "" then throw .emptyInclude
  if Reference.looksRemote target then
    match fetcher with
    | none => throw (.noFetcher target)
    | some fetch =>
      let path ← Action.within ("fetching " ++ target) (fetch target)
      pure (path, target)
  else
    let path :=
      if Path.isAbsolute target then target else Path.join [Path.directory including, target]
    match (← Action.store).find path with
    | .error _ => throw (.includeNotFound target)
    | .ok .directory => throw (.includeIsDirectory target)
    | .ok (.file ..) => pure (Path.clean path, Path.clean path)

/-- The directive at `index` with what it means; faults point at the path after the keyword. -/
def resolveDirective (fetcher : Option Fetcher) (including : String) (index : Nat) (target : Atom) :
    Action (String × String) :=
  tryCatch (resolveTarget fetcher including (unquoted target.text)) fun fault =>
    throw (.phase .inclusion target.file target.line (index + 1) target.text (some fault))

/-- Follows the include directives among `atoms`, of which the first has the index given. `enter`
reads a file that was not met before. -/
def followIncludes (fetcher : Option Fetcher)
    (enter : String → String → Discovery → Action Discovery) (path display : String) (index : Nat) :
    List Atom → Discovery → Action Discovery
  | [], d => pure d
  | a :: rest, d => do
    if !a.isInclude then followIncludes fetcher enter path display (index + 1) rest d
    else
      match rest with
      | [] =>
        throw (.phase .inclusion a.file a.line index a.text (some (.violation .includeWithoutPath)))
      | target :: _ =>
        let (found, name) ← resolveDirective fetcher path index target
        Action.tell (.included display name)
        let known := d.graph.contains found
        let d := d.addInclude path index found
        let d ← if known then pure d else enter found name d
        followIncludes fetcher enter path display (index + 1) rest d

/-- Reads a file, whose atoms are reported under the name `display`, and the files it includes. -/
def discover (fetcher : Option Fetcher) : Nat → String → String → Discovery → Action Discovery
  | 0, _, _, _ => throw .includesTooDeep
  | depth + 1, path, display, d => do
    let lines ← Action.inPhase .read
      (Action.within ("reading " ++ display) (Action.ofExcept ((← Action.store).readLines path)))
    let atoms := lex display lines
    followIncludes fetcher (discover fetcher depth) path display 0 atoms (d.addSource path atoms)

/-- No program has more files than there are texts short enough for a path. -/
def depthLimit : Nat := Nat.pow 256 pathLimit

end DawnC
