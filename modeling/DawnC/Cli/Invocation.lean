import DawnC.Cli.Verb

set_option autoImplicit false

namespace DawnC

/-- The short forms and what they stand for. -/
def shortForms : List (String × String) := [("-b", "build"), ("-br", "run"), ("-d", "--debug")]

/-- The arguments with the short forms before `--` written out. -/
def expandShortForms : List String → List String
  | [] => []
  | argument :: rest =>
    if argument = "--" then argument :: rest
    else (shortForms.lookup argument).getD argument :: expandShortForms rest

inductive Command where
  | build (input output : String)
  | run (input output : String) (arguments : List String)
  /-- an empty `output` means that the code is printed -/
  | transpile (input output : String)
  | clean (withCache : Bool)
  | version
  | help
  deriving DecidableEq, Repr

structure Invocation where
  debug : Bool
  command : Command
  deriving DecidableEq, Repr

namespace Command

/-- The program arguments of `run` follow `--`, which has exactly two arguments before it. -/
def runArguments (p : ParsedArguments) (extra : List String) : Except UsageFault (List String) :=
  match p.beforeDash with
  | some before => if before = 2 then .ok extra else .error .misplacedDash
  | none => if extra.isEmpty then .ok [] else .error .programArguments

def ofArguments (verb : Verb) (p : ParsedArguments) : Except UsageFault Command :=
  match verb, p.positional with
  | .build, [input, output] => .ok (.build input output)
  | .build, others => .error (.wrongCount 2 others.length)
  | .run, input :: output :: extra => (runArguments p extra).map (.run input output)
  | .run, others => .error (.tooFew 2 others.length)
  | .transpile, [input] => .ok (.transpile input ((p.value? .output).getD ""))
  | .transpile, others => .error (.wrongCount 1 others.length)
  | .clean, [] => .ok (.clean (p.isOn .cache))
  | .clean, word :: _ => .error (.unknownCommand word (programName ++ " " ++ Verb.clean.name) [])
  | .version, _ => .ok .version
  | .help, _ => .ok .help
  | .completion, _ => .ok .help

end Command

namespace Invocation

/-- Reads a command line: first the command is found, then its flags, then its arguments. Without a
command, or on request, it asks for help. -/
def parse (arguments : List String) : Except UsageFault Invocation := do
  let (verb, arguments) ← findVerb (expandShortForms arguments)
  let parsed ← ParsedArguments.parse (flagsOf verb) arguments
  let debug := parsed.isOn .debug
  match verb with
  | none => pure ⟨debug, .help⟩
  | some verb =>
    if parsed.isOn .help then pure ⟨debug, .help⟩
    else pure ⟨debug, ← Command.ofArguments verb parsed⟩

end Invocation

end DawnC
