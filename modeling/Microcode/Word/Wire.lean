import Microcode.Word.Basic

/-!
# Words in a log stream

A word is logged as one byte that asks for hexadecimal display, followed by the word as an unsigned
integer in the shortest of five forms: one byte up to 23, and otherwise a head byte with 1, 2, 4 or 8
bytes of the number, the most significant first.
-/

namespace Microcode

namespace Word

/-- The head byte that asks for hexadecimal display. -/
def hexTag : UInt8 := 0xc7

/-- The low `count` bytes of a number, the most significant first. -/
def bigEndian : (count : Nat) → Nat → Text
  | 0, _ => []
  | count + 1, n => bigEndian count (n / 256) ++ [n.toUInt8]

/-- An unsigned 64-bit number in the shortest form. -/
def unsignedWire (n : Nat) : Text :=
  if n < 24 then [n.toUInt8]
  else if n < 0x100 then 0x18 :: bigEndian 1 n
  else if n < 0x10000 then 0x19 :: bigEndian 2 n
  else if n < 0x100000000 then 0x1a :: bigEndian 4 n
  else 0x1b :: bigEndian 8 n

/-- The word as it stands in a log stream. -/
def wire (w : Word) : Text :=
  hexTag :: unsignedWire w.bits.toNat

end Word

end Microcode
