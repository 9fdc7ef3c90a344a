import DawnC.Text.Quoted

set_option autoImplicit false

namespace DawnC

inductive UsageFault where
  | unknownCommand (name parent : String) (suggestions : List String)
  | unknownFlag (name : String)
  | unknownShorthand (letter : Char) (group : String)
  | flagNeedsArgument (name : String)
  | shorthandNeedsArgument (letter : Char) (group : String)
  | notABool (value flag : String)
  | badFlag (text : String)
  | wrongCount (expected received : Nat)
  | tooFew (least received : Nat)
  | misplacedDash
  | programArguments
  deriving DecidableEq, Repr

namespace UsageFault

def suggestionText : List String → String
  | [] => ""
  | names => "\n\nDid you mean this?\n" ++ String.join (names.map fun name => "\t" ++ name ++ "\n")

def message : UsageFault → String
  | unknownCommand name parent suggestions =>
    "unknown command " ++ Text.quote name ++ " for " ++ Text.quote parent ++ suggestionText suggestions
  | unknownFlag name => "unknown flag: --" ++ name
  | unknownShorthand letter group =>
    "unknown shorthand flag: " ++ Text.quoteChar letter ++ " in -" ++ group
  | flagNeedsArgument name => "flag needs an argument: --" ++ name
  | shorthandNeedsArgument letter group =>
    "flag needs an argument: " ++ Text.quoteChar letter ++ " in -" ++ group
  | notABool value flag =>
    "invalid argument " ++ Text.quote value ++ " for " ++ Text.quote flag ++
      " flag: strconv.ParseBool: parsing " ++ Text.quote value ++ ": invalid syntax"
  | badFlag text => "bad flag syntax: " ++ text
  | wrongCount expected received =>
    "accepts " ++ toString expected ++ " arg(s), received " ++ toString received
  | tooFew least received =>
    "requires at least " ++ toString least ++ " arg(s), only received " ++ toString received
  | misplacedDash => "run takes exactly <input.dawn> <output> before --"
  | programArguments => "program arguments must follow --"

end UsageFault

end DawnC
