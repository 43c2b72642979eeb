import Microcode.Text.Basic
import Microcode.Text.Printable

/-!
# Quoted text

Messages show a piece of text between double quotes. Printable characters stand for themselves, the
quote and the backslash get a backslash, seven controls have letters of their own, and everything else
is written with hexadecimal digits: `\x` for a control or for a byte that is no part of a valid
encoding, `\u` and `\U` for the other characters.
-/

namespace Microcode

namespace Text

/-- The character whose encoding the text starts with. -/
def firstChar? (s : Text) : Option Char :=
  (ByteArray.mk (s.take 4).toArray).utf8DecodeChar? 0

/-- The letter that stands for a control character after a backslash. -/
def controlLetter? (c : Char) : Option Char :=
  [('\x07', 'a'), ('\x08', 'b'), ('\x0c', 'f'), ('\n', 'n'), ('\r', 'r'), ('\t', 't'),
    ('\x0b', 'v')].lookup c

/-- How one character is written between quotes. -/
def escapeChar (c : Char) : Text :=
  if c == '"' || c == '\\' then ['\\'.toUInt8, c.toUInt8]
  else if isPrintable c then String.utf8EncodeChar c
  else match controlLetter? c with
    | some letter => ['\\'.toUInt8, letter.toUInt8]
    | none =>
      if c.toNat < 0x20 || c.toNat == 0x7F then ascii "\\x" ++ hex 2 c.toNat
      else if c.toNat < 0x10000 then ascii "\\u" ++ hex 4 c.toNat
      else ascii "\\U" ++ hex 8 c.toNat

/-- Drops `skip` bytes and writes the rest as it stands between quotes. -/
def escapeFrom : (skip : Nat) → Text → Text
  | _, [] => []
  | skip + 1, _ :: s => escapeFrom skip s
  | 0, b :: s =>
    match firstChar? (b :: s) with
    | some c => escapeChar c ++ escapeFrom (c.utf8Size - 1) s
    | none => ascii "\\x" ++ hex 2 b.toNat ++ escapeFrom 0 s

/-- The text between double quotes. -/
def quote (s : Text) : Text :=
  ascii "\"" ++ escapeFrom 0 s ++ ascii "\""

end Text

end Microcode
