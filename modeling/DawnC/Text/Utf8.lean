set_option autoImplicit false

namespace DawnC

/-- The contents of a file, or a line of it. -/
abbrev Bytes := List UInt8

namespace Utf8

/-- What an undecodable byte is read as. -/
def replacement : Char := '�'

def isTail (b : UInt8) : Bool := 0x80 ≤ b && b ≤ 0xBF

/-- The low six bits of a continuation byte. -/
def tailBits (b : UInt8) : Nat := b.toNat % 64

/-- The bounds of the byte after a three- or four-byte lead: narrower than a continuation byte
where a wider one would spell an overlong form, a surrogate or a code point past U+10FFFF. -/
def secondBounds (lead : UInt8) : UInt8 × UInt8 :=
  if lead = 0xE0 then (0xA0, 0xBF)
  else if lead = 0xED then (0x80, 0x9F)
  else if lead = 0xF0 then (0x90, 0xBF)
  else if lead = 0xF4 then (0x80, 0x8F)
  else (0x80, 0xBF)

def isSecond (lead b : UInt8) : Bool := (secondBounds lead).1 ≤ b && b ≤ (secondBounds lead).2

/-- The character that `lead` and the bytes after it begin with, and how many of those bytes
belong to it. -/
def charAt? (lead : UInt8) (rest : Bytes) : Option (Char × Nat) :=
  if lead < 0x80 then some (Char.ofNat lead.toNat, 0)
  else if 0xC2 ≤ lead && lead ≤ 0xDF then
    match rest with
    | b :: _ =>
      if isTail b then some (Char.ofNat (lead.toNat % 32 * 64 + tailBits b), 1) else none
    | [] => none
  else if 0xE0 ≤ lead && lead ≤ 0xEF then
    match rest with
    | b :: c :: _ =>
      if isSecond lead b && isTail c then
        some (Char.ofNat ((lead.toNat % 16 * 64 + tailBits b) * 64 + tailBits c), 2)
      else none
    | _ => none
  else if 0xF0 ≤ lead && lead ≤ 0xF4 then
    match rest with
    | b :: c :: d :: _ =>
      if isSecond lead b && isTail c && isTail d then
        some (Char.ofNat (((lead.toNat % 8 * 64 + tailBits b) * 64 + tailBits c) * 64 + tailBits d), 3)
      else none
    | _ => none
  else none

/-- Decodes with `skip` bytes of the last character still to pass over; `done` is in reverse. -/
def decodeFrom (done : List Char) : Nat → Bytes → List Char
  | _, [] => done.reverse
  | skip + 1, _ :: rest => decodeFrom done skip rest
  | 0, lead :: rest =>
    match charAt? lead rest with
    | some (c, size) => decodeFrom (c :: done) size rest
    | none => decodeFrom (replacement :: done) 0 rest

/-- The characters of a byte string. -/
def decode (bytes : Bytes) : List Char := decodeFrom [] 0 bytes

def encode (text : String) : Bytes := text.toUTF8.data.toList

end Utf8

end DawnC
