import DawnC.Text.Utf8

set_option autoImplicit false

namespace DawnC.Text

/-- The letters whose lower case has another number of bytes, with their lower case. -/
def resizedLetters : List (Nat × Nat) :=
  [(0x130, 0x69), (0x23A, 0x2C65), (0x23E, 0x2C66), (0x1E9E, 0xDF), (0x2126, 0x3C9), (0x212A, 0x6B),
   (0x212B, 0xE5), (0x2C62, 0x26B), (0x2C64, 0x27D), (0x2C6D, 0x251), (0x2C6E, 0x271), (0x2C6F, 0x250),
   (0x2C70, 0x252), (0x2C7E, 0x23F), (0x2C7F, 0x240), (0xA78D, 0x265), (0xA7AA, 0x266), (0xA7AB, 0x25C),
   (0xA7AC, 0x261), (0xA7AD, 0x26C), (0xA7AE, 0x26A), (0xA7B0, 0x29E), (0xA7B1, 0x287), (0xA7B2, 0x29D),
   (0xA7C5, 0x282)]

/-- The lower case of an ASCII letter and of the letters above. Other letters stay: their lower case
is as long as they are. -/
def lower (c : Char) : Char :=
  match resizedLetters.lookup c.toNat with
  | some n => Char.ofNat n
  | none => c.toLower

/-- The bytes of the text in lower case. -/
def lowerBytes (text : String) : Bytes := Utf8.encode (String.ofList (text.toList.map lower))

end DawnC.Text
