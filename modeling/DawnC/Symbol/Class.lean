set_option autoImplicit false

namespace DawnC

inductive SymbolClass where
  /-- the class of a name that was never declared -/
  | unknown
  | int
  | string
  | bool
  | intList
  | function
  /-- a code outside the language -/
  | other (code : Int)
  deriving DecidableEq, Repr

namespace SymbolClass

def name : SymbolClass → String
  | unknown => "none"
  | int => "int"
  | string => "string"
  | bool => "bool"
  | intList => "List<int>"
  | function => "function"
  | other code => "SymbolClass(" ++ toString code ++ ")"

def ofCode (code : Int) : SymbolClass :=
  if code = 0 then unknown
  else if code = 1 then int
  else if code = 2 then string
  else if code = 3 then bool
  else if code = 4 then intList
  else if code = 5 then function
  else other code

/-- The class holds variables. -/
def isVariable : SymbolClass → Bool
  | int | string | bool | intList => true
  | _ => false

end SymbolClass

end DawnC
