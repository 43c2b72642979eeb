import Microcode.Text.Basic

/-!
# Blanks and trimming

A blank is a character with the Unicode property `White_Space`. Trimming removes the encodings of blanks
from both ends of a text. It looks at whole encodings, so a byte that merely occurs inside one (such as a
stray `0x85` or `0xA0`) stays.
-/

namespace Microcode

namespace Text

/-- The characters that count as blank. -/
def blankChars : List Char :=
  ['\t', '\n', '\x0b', '\x0c', '\r', ' ', '\u0085', '\u00a0', '\u1680', '\u2000', '\u2001',
   '\u2002', '\u2003', '\u2004', '\u2005', '\u2006', '\u2007', '\u2008', '\u2009', '\u200a',
   '\u2028', '\u2029', '\u202f', '\u205f', '\u3000']

/-- The encodings of the blanks. -/
def blanks : List Text :=
  blankChars.map String.utf8EncodeChar

/-- Drops `skip` bytes and then the longest sequence of the given pieces. -/
def dropPieces (pieces : List Text) : (skip : Nat) → Text → Text
  | _, [] => []
  | skip + 1, _ :: s => dropPieces pieces skip s
  | 0, b :: s =>
    match pieces.find? (·.isPrefixOf (b :: s)) with
    | some piece => dropPieces pieces (piece.length - 1) s
    | none => b :: s

/-- Removes the blanks at the start. -/
def trimLeft (s : Text) : Text :=
  dropPieces blanks 0 s

/-- Removes the blanks at the end. No encoding of a blank ends another, so they can be read backwards. -/
def trimRight (s : Text) : Text :=
  (dropPieces (blanks.map List.reverse) 0 s.reverse).reverse

/-- Removes the blanks at both ends. -/
def trim (s : Text) : Text :=
  trimRight (trimLeft s)

end Text

end Microcode
