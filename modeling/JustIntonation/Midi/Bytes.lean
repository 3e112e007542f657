/-
JustIntonation/Midi/Bytes.lean

Numbers as bytes of a Standard MIDI File.

Fixed-width numbers are written most significant byte first.  A
variable-length quantity has seven bits to a byte, again most significant
first, and every byte but the last has its top bit set.
-/

namespace JustIntonation.Midi

/-- The low `8 · count` bits of a number, most significant byte first. -/
def bigEndian : Nat → Nat → List UInt8
  | 0, _ => []
  | count + 1, n => bigEndian count (n / 256) ++ [UInt8.ofNat (n % 256)]

/-- The leading bytes of a variable-length quantity, put before `last`. -/
def leadingGroups (n : Nat) (last : List UInt8) : List UInt8 :=
  if n = 0 then last else leadingGroups (n / 128) (UInt8.ofNat (128 + n % 128) :: last)
termination_by n

/-- A variable-length quantity. -/
def variableLength (n : Nat) : List UInt8 := leadingGroups (n / 128) [UInt8.ofNat (n % 128)]

/-- The largest number that fits into four bytes of a variable-length quantity. -/
def maxVariableLength : Nat := 0x0FFFFFFF

/-- The low fourteen bits of a number in two bytes of seven, least significant first. -/
def fourteenBits (n : Nat) : List UInt8 := [UInt8.ofNat (n % 128), UInt8.ofNat (n / 128 % 128)]

/-- A chunk: four characters of name, the length of the body, the body. -/
def chunk (name : String) (body : List UInt8) : List UInt8 :=
  name.toUTF8.toList ++ bigEndian 4 body.length ++ body

end JustIntonation.Midi
