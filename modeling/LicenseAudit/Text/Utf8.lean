/-!
# Text from bytes that may not be text

File names are bytes. As far as they are UTF-8 they are read as text; each maximal stretch of
bytes that begins a character but does not complete it, and each byte that can begin none, becomes
one replacement character. The reading goes through the bytes once, and the only thing it
remembers is what the character begun so far still needs.
-/

set_option autoImplicit false

namespace LicenseAudit

namespace Utf8

/-- A character that has begun: the bits so far, how many bytes are to come after the next one,
and which bytes may come next. -/
structure Begun where
  /-- The bits of the character so far. -/
  bits : Nat
  /-- How many bytes are needed after the next one. -/
  further : Nat
  /-- The least byte that may come next. -/
  least : Nat
  /-- The greatest byte that may come next. -/
  greatest : Nat
deriving DecidableEq

/-- What a byte can be at the start of a character. -/
inductive Lead where
  | whole (c : Char)
  /-- The first byte of a longer character. -/
  | begun (b : Begun)
  /-- No start of a character. -/
  | stray
deriving DecidableEq

/-- What a byte is at the start of a character. The second byte is restricted after some first
bytes, so that every character has its shortest form only, no surrogate is encoded, and nothing
is beyond the last code point. -/
def Lead.ofByte (byte : UInt8) : Lead :=
  let b := byte.toNat
  if b < 0x80 then .whole (Char.ofNat b)
  else if b < 0xC2 then .stray
  else if b < 0xE0 then .begun ⟨b - 0xC0, 0, 0x80, 0xBF⟩
  else if b < 0xF0 then
    .begun ⟨b - 0xE0, 1, if b = 0xE0 then 0xA0 else 0x80, if b = 0xED then 0x9F else 0xBF⟩
  else if b < 0xF5 then
    .begun ⟨b - 0xF0, 2, if b = 0xF0 then 0x90 else 0x80, if b = 0xF4 then 0x8F else 0xBF⟩
  else .stray

/-- The character that stands for bytes that are no text. -/
def replacement : Char := '\uFFFD'

/-- Reads bytes, after those of a character that has begun. -/
def readFrom : Option Begun → List UInt8 → List Char
  | none, [] => []
  | some _, [] => [replacement]
  | none, byte :: rest =>
    match Lead.ofByte byte with
    | .whole c => c :: readFrom none rest
    | .begun b => readFrom (some b) rest
    | .stray => replacement :: readFrom none rest
  | some b, byte :: rest =>
    if b.least ≤ byte.toNat ∧ byte.toNat ≤ b.greatest then
      let bits := b.bits * 64 + (byte.toNat - 0x80)
      match b.further with
      | 0 => Char.ofNat bits :: readFrom none rest
      | n + 1 => readFrom (some ⟨bits, n, 0x80, 0xBF⟩) rest
    else
      replacement ::
        match Lead.ofByte byte with
        | .whole c => c :: readFrom none rest
        | .begun b => readFrom (some b) rest
        | .stray => replacement :: readFrom none rest

def read (bytes : List UInt8) : String := String.ofList (readFrom none bytes)

def write (text : String) : List UInt8 := text.toUTF8.toList

end Utf8

end LicenseAudit
