import Microcode.Text.Basic

/-!
# Integer literals

A literal is an optional sign and a magnitude. The magnitude is decimal, or it has a base prefix
(`0x`, `0o`, `0b` in either case, or a leading `0` for octal). Underscores may separate digits from each
other and from the base prefix. The value has to fit a signed 64-bit integer.

The magnitude is read from left to right. A character that is no digit of the base makes the literal
malformed, a value of 2 ^ 64 or more puts it out of range, and whichever comes first decides. The places
of the underscores and the sign are judged after that.
-/

namespace Microcode

/-- Why a token is not an integer literal. -/
inductive LiteralError where
  /-- It does not have the form of a literal. -/
  | malformed
  /-- Its value does not fit. -/
  | outOfRange
deriving DecidableEq, Repr

namespace LiteralError

/-- The wording of the two causes. -/
def message : LiteralError → Text
  | malformed => ascii "invalid syntax"
  | outOfRange => ascii "value out of range"

end LiteralError

namespace Literal

/-- The separator of digits. -/
def underscore : UInt8 := '_'.toUInt8

/-- The value of a digit: decimal digits, then the letters of either case from ten on. -/
def digit? (b : UInt8) : Option Nat :=
  if Text.isDigit b then some (b.toNat - '0'.toNat)
  else if 'a'.toUInt8 ≤ b && b ≤ 'z'.toUInt8 then some (b.toNat - 'a'.toNat + 10)
  else if 'A'.toUInt8 ≤ b && b ≤ 'Z'.toUInt8 then some (b.toNat - 'A'.toNat + 10)
  else none

/-- The digits of a magnitude with their base. -/
structure Magnitude where
  base : Nat
  /-- Whether the digits came after a base prefix. -/
  marked : Bool
  digits : Text
deriving DecidableEq, Repr

/-- The base that a letter after a leading zero stands for. -/
def baseOfLetter? (b : UInt8) : Option Nat :=
  if b == 'b'.toUInt8 || b == 'B'.toUInt8 then some 2
  else if b == 'o'.toUInt8 || b == 'O'.toUInt8 then some 8
  else if b == 'x'.toUInt8 || b == 'X'.toUInt8 then some 16
  else none

/-- Takes the base prefix off. A base letter counts only if something follows it. -/
def Magnitude.ofText : Text → Magnitude
  | z :: letter :: d :: s =>
    if z == '0'.toUInt8 then
      match baseOfLetter? letter with
      | some base => ⟨base, true, d :: s⟩
      | none => ⟨8, true, letter :: d :: s⟩
    else ⟨10, false, z :: letter :: d :: s⟩
  | z :: s => if z == '0'.toUInt8 then ⟨8, true, s⟩ else ⟨10, false, z :: s⟩
  | [] => ⟨10, false, []⟩

/-- Reads digits in a base on top of the value `acc`, passing over underscores. -/
def readDigits (base : Nat) : (acc : Nat) → Text → Except LiteralError Nat
  | acc, [] => .ok acc
  | acc, b :: s =>
    if b == underscore then readDigits base acc s
    else match digit? b with
      | none => .error .malformed
      | some d =>
        if base ≤ d then .error .malformed
        else if 1 <<< 64 ≤ acc * base + d then .error .outOfRange
        else readDigits base (acc * base + d) s

/-- Whether every underscore stands between digits; `free` says that one may stand at the start. -/
def separated : (free : Bool) → Text → Bool
  | free, [] => free
  | free, b :: s => if b == underscore then free && separated false s else separated true s

/-- The value of a magnitude. -/
def Magnitude.value (m : Magnitude) : Except LiteralError Nat := do
  let n ← readDigits m.base 0 m.digits
  if separated m.marked m.digits then return n else throw .malformed

/-- Splits a token into its sign (`true` for minus) and the rest. -/
def splitSign : Text → Bool × Text
  | [] => (false, [])
  | b :: s =>
    if b == '-'.toUInt8 then (true, s)
    else if b == '+'.toUInt8 then (false, s)
    else (false, b :: s)

/-- Gives a magnitude its sign, if the value fits a signed 64-bit integer. -/
def signed (negative : Bool) (n : Nat) : Except LiteralError Int :=
  if negative then
    if n ≤ 1 <<< 63 then .ok (-(n : Int)) else .error .outOfRange
  else
    if n < 1 <<< 63 then .ok n else .error .outOfRange

/-- The value of an integer literal. -/
def read (token : Text) : Except LiteralError Int := do
  let (negative, rest) := splitSign token
  let n ← (Magnitude.ofText rest).value
  signed negative n

end Literal

end Microcode
