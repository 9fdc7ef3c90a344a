import DawnC.Cli.Flag
import DawnC.Text.Distance
import DawnC.Text.LowerCase

set_option autoImplicit false

namespace DawnC

inductive Verb where
  | build
  | run
  | transpile
  | clean
  | version
  | help
  | completion
  deriving DecidableEq, Repr

namespace Verb

def name : Verb → String
  | build => "build"
  | run => "run"
  | transpile => "transpile"
  | clean => "clean"
  | version => "version"
  | help => "help"
  | completion => "completion"

/-- Those that a mistyped name may have meant, in the order in which they are offered. -/
def offered : List Verb := [build, run, transpile, clean, version, completion]

def ofName? (name : String) : Option Verb := (help :: offered).find? (·.name = name)

end Verb

/-- The name of the program. -/
def programName : String := "dawn"

namespace Flag

def debug : Flag := { name := "debug", letter := some 'd' }

def help : Flag := { name := "help", letter := some 'h' }

def output : Flag := { name := "output", letter := some 'o', isSwitch := false }

def cache : Flag := { name := "cache" }

end Flag

/-- The flags of a command, or of the program alone. -/
def flagsOf : Option Verb → List Flag
  | some .transpile => [.debug, .help, .output]
  | some .clean => [.debug, .help, .cache]
  | _ => [.debug, .help]

/-- A name differs in at most this many places from a command that it may have meant. -/
def suggestionDistance : Nat := 2

/-- The commands that are close to a name or begin with it, whatever the case. -/
def suggestions (name : String) : List String :=
  let typed := Text.lowerBytes name
  (Verb.offered.map Verb.name).filter fun known =>
    let known := Utf8.encode known
    Text.distance typed known ≤ suggestionDistance || typed.isPrefixOf known

/-- The switches that are known before the command is. -/
def leadingSwitches : List Flag := [.debug]

/-- An argument before the command that takes the next one as its value: a flag without an equals
sign that is no known switch. -/
def takesNext (argument : String) : Bool :=
  match argument.toList with
  | '-' :: '-' :: name =>
    !name.contains '=' && !leadingSwitches.any (·.name = String.ofList name)
  | ['-', letter] =>
    letter ≠ '=' && letter.toNat < 0x80 && !leadingSwitches.any (·.letter = some letter)
  | _ => false

def isFlagLike (argument : String) : Bool := argument.toList.head? = some '-'

/-- The arguments before `--` that are neither flags nor their values. A flag that takes the last
argument or none ends the search. -/
def withoutFlags : List String → List String
  | [] => []
  | argument :: rest =>
    if argument = "--" then []
    else if takesNext argument then
      match rest with
      | _ :: next :: more => withoutFlags (next :: more)
      | _ => []
    else if argument = "" || isFlagLike argument then withoutFlags rest
    else argument :: withoutFlags rest

/-- The arguments without the first that is this word and no flag's value. -/
def withoutWord (word : String) : List String → List String
  | [] => []
  | argument :: rest =>
    if argument = "--" then argument :: rest
    else if takesNext argument then
      match rest with
      | [] => [argument]
      | value :: more => argument :: value :: withoutWord word more
    else if argument = word then rest
    else argument :: withoutWord word rest

/-- The command among the arguments, if there is one, and the other arguments. -/
def findVerb (arguments : List String) : Except UsageFault (Option Verb × List String) :=
  match withoutFlags arguments with
  | [] => .ok (none, arguments)
  | name :: _ =>
    match Verb.ofName? name with
    | some verb => .ok (some verb, withoutWord name arguments)
    | none => .error (.unknownCommand name programName (suggestions name))

end DawnC
