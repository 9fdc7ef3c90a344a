import DawnC.Fault.Usage

set_option autoImplicit false

namespace DawnC

structure Flag where
  name : String
  letter : Option Char := none
  isSwitch : Bool := true
  deriving DecidableEq, Repr

namespace Flag

/-- How messages name the flag. -/
def title (flag : Flag) : String :=
  match flag.letter with
  | some letter => "-" ++ String.singleton letter ++ ", --" ++ flag.name
  | none => "--" ++ flag.name

def trueWords : List String := ["1", "t", "T", "TRUE", "true", "True"]

def falseWords : List String := ["0", "f", "F", "FALSE", "false", "False"]

/-- A switch takes only a truth value, any other flag every value. -/
def accepts (flag : Flag) (value : String) : Bool :=
  !flag.isSwitch || value ∈ trueWords || value ∈ falseWords

end Flag

/-- A flag that was given, with its value. -/
structure Setting where
  flag : Flag
  value : String
  deriving DecidableEq, Repr

namespace Setting

def make (flag : Flag) (value : String) : Except UsageFault Setting :=
  if flag.accepts value then .ok ⟨flag, value⟩ else .error (.notABool value flag.title)

end Setting

/-- What one argument gave: its settings, and whether the argument after it was used as a value. -/
structure FlagReading where
  settings : List Setting
  usesNext : Bool
  deriving DecidableEq, Repr

/-- How a letter that is not known is shown. One outside ASCII is looked up by a byte of it, and shown
by a byte of that. -/
def shownLetter (c : Char) : Char := if c.toNat < 0x80 then c else Char.ofNat 0xC3

/-- Reads the letters after a dash; `next` is the argument that follows. Letters that begin with
`test.` are passed over. -/
def readLetters (flags : List Flag) (next : Option String) :
    List Char → Except UsageFault FlagReading
  | [] => .ok ⟨[], false⟩
  | letter :: rest =>
    if "test.".toList.isPrefixOf (letter :: rest) then .ok ⟨[], false⟩
    else
      match flags.find? (·.letter = some letter) with
      | none => .error (.unknownShorthand (shownLetter letter) (String.ofList (letter :: rest)))
      | some flag =>
        match rest with
        | '=' :: first :: more => do
          let setting ← Setting.make flag (String.ofList (first :: more))
          pure ⟨[setting], false⟩
        | rest =>
          if flag.isSwitch then do
            let setting ← Setting.make flag "true"
            let reading ← readLetters flags next rest
            pure ⟨setting :: reading.settings, reading.usesNext⟩
          else
            match rest, next with
            | _ :: _, _ => do
              let setting ← Setting.make flag (String.ofList rest)
              pure ⟨[setting], false⟩
            | [], some value => do
              let setting ← Setting.make flag value
              pure ⟨[setting], true⟩
            | [], none => .error (.shorthandNeedsArgument letter (String.ofList [letter]))

/-- Reads a long flag without its dashes. -/
def readLong (flags : List Flag) (next : Option String) (text : List Char) :
    Except UsageFault FlagReading :=
  if text.head? = some '-' || text.head? = some '=' then
    .error (.badFlag (String.ofList ('-' :: '-' :: text)))
  else
    let name := String.ofList (text.takeWhile (· ≠ '='))
    match flags.find? (·.name = name), text.dropWhile (· ≠ '=') with
    | none, _ => .error (.unknownFlag name)
    | some flag, _ :: value => do
      let setting ← Setting.make flag (String.ofList value)
      pure ⟨[setting], false⟩
    | some flag, [] =>
      if flag.isSwitch then do
        let setting ← Setting.make flag "true"
        pure ⟨[setting], false⟩
      else
        match next with
        | some value => do
          let setting ← Setting.make flag value
          pure ⟨[setting], true⟩
        | none => .error (.flagNeedsArgument name)

/-- Reads an argument that starts with a dash, from the character after it on. -/
def readFlag (flags : List Flag) (next : Option String) (first : Char) (rest : List Char) :
    Except UsageFault FlagReading :=
  if first = '-' then readLong flags next rest else readLetters flags next (first :: rest)

/-- A command line after its flags were read. -/
structure ParsedArguments where
  settings : List Setting := []
  positional : List String := []
  /-- how many positional arguments stood before `--`, if it was there -/
  beforeDash : Option Nat := none
  deriving DecidableEq, Repr

namespace ParsedArguments

/-- The value that a flag was given last. -/
def value? (p : ParsedArguments) (flag : Flag) : Option String :=
  (p.settings.reverse.find? (·.flag = flag)).map (·.value)

/-- A switch that was given last with a true value. -/
def isOn (p : ParsedArguments) (flag : Flag) : Bool := (p.value? flag).any (· ∈ Flag.trueWords)

/-- Reads the arguments one after another. -/
def parseFrom (flags : List Flag) (p : ParsedArguments) : List String → Except UsageFault ParsedArguments
  | [] => .ok p
  | argument :: rest =>
    match argument.toList with
    | ['-', '-'] =>
      .ok { p with positional := p.positional ++ rest, beforeDash := some p.positional.length }
    | '-' :: c :: more =>
      match readFlag flags rest.head? c more with
      | .error fault => .error fault
      | .ok reading =>
        let p := { p with settings := p.settings ++ reading.settings }
        match reading.usesNext, rest with
        | true, _ :: rest => parseFrom flags p rest
        | _, rest => parseFrom flags p rest
    | _ => parseFrom flags { p with positional := p.positional ++ [argument] } rest

def parse (flags : List Flag) (arguments : List String) : Except UsageFault ParsedArguments :=
  parseFrom flags {} arguments

end ParsedArguments

end DawnC
