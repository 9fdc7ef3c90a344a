import DawnC.Fault
import DawnC.Store.Lookup

set_option autoImplicit false

namespace DawnC

/-- The longest line, its carriage return included and its newline not. -/
def lineLimit : Nat := 1048575

def newline : UInt8 := 10

def carriageReturn : UInt8 := 13

/-- The lines as they stand between newlines. -/
def rawLines (bytes : Bytes) : List Bytes :=
  let pieces := Text.cut newline bytes
  if pieces.getLast? = some [] then pieces.dropLast else pieces

def dropReturn (line : Bytes) : Bytes :=
  if line.getLast? = some carriageReturn then line.dropLast else line

/-- The lines of a text, none if one of them is too long. -/
def lines? (bytes : Bytes) : Option (List Bytes) :=
  let raw := rawLines bytes
  if raw.all fun line => line.length ≤ lineLimit then some (raw.map dropReturn) else none

namespace Store

def readLines (s : Store) (path : String) : Except Fault (List Bytes) :=
  match s.readFile path with
  | .error fault => .error (.file fault)
  | .ok bytes =>
    match lines? bytes with
    | some lines => .ok lines
    | none => .error .lineTooLong

end Store

end DawnC
