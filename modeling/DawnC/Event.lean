import DawnC.Fault
import DawnC.Text.Space

set_option autoImplicit false

namespace DawnC

inductive Event where
  | phaseEntered (phase : Phase)
  | included (source target : String)
  | includesResolved (root : String) (files atoms : Nat)
  | sourceLoaded (file : String) (atoms : Nat)
  | functionsFound (names : List String)
  | importsFound (headers : List String)
  | codeGenerated (lines headers : Nat)
  | cacheHit (repo ref : String)
  | cloning (url ref : String)
  | workspaceChosen (dir : String)
  | compiling (compiler : String) (arguments : List String)
  /-- the artifact was not there; the next look is `delay` milliseconds later -/
  | artifactAwaited (attempt delay : Nat)
  | executableBuilt (output : String)
  | cleanupFailed (fault : Fault)
  | programStarted (path : String) (arguments : List String)

namespace Event

/-- A character that cannot stand in a value without quotes. -/
def forcesQuotes (c : Char) : Bool :=
  c = ' ' || c = '=' || c = '"' || c = '\uFFFD' || Text.isSpace c || !Text.isPrintable c

/-- A value as it stands in a line. -/
def value (text : String) : String :=
  if text = "" || text.toList.any forcesQuotes then Text.quote text else text

def listText (texts : List String) : String := "[" ++ String.intercalate " " texts ++ "]"

def title : Event → String
  | phaseEntered _ => "phase"
  | included .. => "include"
  | includesResolved .. => "includes resolved"
  | sourceLoaded .. => "loaded source"
  | functionsFound _ => "functions"
  | importsFound _ => "imports"
  | codeGenerated .. => "generated C"
  | cacheHit .. => "remote include cache hit"
  | cloning .. => "cloning remote include"
  | workspaceChosen _ => "using workspace"
  | compiling .. => "running compiler"
  | artifactAwaited .. => "waiting for artifact"
  | executableBuilt _ => "built executable"
  | cleanupFailed _ => "cleanup after failed build"
  | programStarted .. => "running program"

def details : Event → List (String × String)
  | phaseEntered phase => [("name", phase.name), ("code", phase.code)]
  | included source target => [("from", source), ("target", target)]
  | includesResolved root files atoms =>
    [("root", root), ("files", toString files), ("atoms", toString atoms)]
  | sourceLoaded file atoms => [("file", file), ("atoms", toString atoms)]
  | functionsFound names => [("names", listText names)]
  | importsFound headers => [("headers", listText headers)]
  | codeGenerated lines headers => [("lines", toString lines), ("headers", toString headers)]
  | cacheHit repo ref => [("repo", repo), ("ref", ref)]
  | cloning url ref => [("url", url), ("ref", ref)]
  | workspaceChosen dir => [("dir", dir)]
  | compiling compiler arguments =>
    [("cc", compiler), ("args", String.intercalate " " arguments)]
  | artifactAwaited attempt delay =>
    [("attempt", toString attempt), ("delay", toString delay ++ "ms")]
  | executableBuilt output => [("output", output)]
  | cleanupFailed fault => [("err", fault.message)]
  | programStarted path arguments => [("path", path), ("args", listText arguments)]

/-- Shown also without the debug log. -/
def isWarning : Event → Bool
  | cleanupFailed _ => true
  | _ => false

/-- The line of the log, with its newline. -/
def line (e : Event) : String :=
  String.intercalate " "
    ((("msg", e.title) :: e.details).map fun d => d.1 ++ "=" ++ value d.2) ++ "\n"

end Event

end DawnC
