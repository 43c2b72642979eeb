/-!
# Text as bytes

Source files, listings and messages are byte strings. Positions, lengths and limits count bytes, and
nothing assumes that the bytes form valid UTF-8.

* `ascii` gives the bytes of a literal of the library;
* `Text.isWord` is the class of bytes that make up names and numbers;
* `Text.cut` splits a text at the first occurrence of a mark;
* `Text.lines` and `Text.unlines` go between a text and its lines.
-/

namespace Microcode

/-- A byte string. -/
abbrev Text := List UInt8

/-- The bytes of an ASCII literal. -/
def ascii (s : String) : Text :=
  s.toList.map Char.toUInt8

namespace Text

/-- The byte that ends a line. -/
def newline : UInt8 := '\n'.toUInt8

/-! ## Classes of bytes -/

/-- The decimal digits. -/
def isDigit (b : UInt8) : Bool :=
  '0'.toUInt8 ≤ b && b ≤ '9'.toUInt8

/-- The bytes of names and numbers: ASCII letters, digits and the underscore. -/
def isWord (b : UInt8) : Bool :=
  ('a'.toUInt8 ≤ b && b ≤ 'z'.toUInt8) || ('A'.toUInt8 ≤ b && b ≤ 'Z'.toUInt8) || isDigit b ||
    b == '_'.toUInt8

/-- The bytes that separate words on a line: space and tab. -/
def isGap (b : UInt8) : Bool :=
  b == ' '.toUInt8 || b == '\t'.toUInt8

/-! ## Splitting at a mark -/

/-- Looks for `mark` in the text, after the bytes of `seen` (in reverse order) were passed. -/
def cutAfter (mark : Text) : Text → Text → Option (Text × Text)
  | seen, [] => if mark.isEmpty then some (seen.reverse, []) else none
  | seen, b :: s =>
    if mark.isPrefixOf (b :: s) then some (seen.reverse, (b :: s).drop mark.length)
    else cutAfter mark (b :: seen) s

/-- The text before and the text after the first occurrence of `mark`, if there is one. -/
def cut (mark s : Text) : Option (Text × Text) :=
  cutAfter mark [] s

/-- A successful search takes the text apart: what was passed, the mark, and the rest. -/
theorem eq_of_cutAfter_eq_some {mark seen s before after : Text}
    (h : cutAfter mark seen s = some (before, after)) :
    seen.reverse ++ s = before ++ mark ++ after := by
  induction s generalizing seen with
  | nil =>
    rw [cutAfter] at h
    split at h
    · rename_i hm
      simp_all [List.isEmpty_iff]
    · simp at h
  | cons b s ih =>
    rw [cutAfter] at h
    split at h
    · rename_i hp
      obtain ⟨rest, hrest⟩ := List.isPrefixOf_iff_prefix.1 hp
      simp only [Option.some.injEq, Prod.mk.injEq] at h
      rw [← h.1, ← h.2, ← hrest]
      simp
    · simpa using ih h

/-- Cutting loses the mark and nothing else. -/
theorem eq_of_cut_eq_some {mark s before after : Text} (h : cut mark s = some (before, after)) :
    s = before ++ mark ++ after := by
  simpa using eq_of_cutAfter_eq_some h

/-- The text before the first occurrence of `mark`, or all of it. -/
def before (mark s : Text) : Text :=
  match cut mark s with
  | some (head, _) => head
  | none => s

/-! ## Lines -/

/-- The lines of a text; a text with `n` newlines has `n + 1` lines. -/
def lines (s : Text) : List Text :=
  s.splitOn newline

/-- The text that has the given lines. -/
def unlines (ls : List Text) : Text :=
  List.intercalate [newline] ls

/-! ## Numbers -/

/-- A natural number in decimal notation. -/
def ofNat (n : Nat) : Text :=
  (Nat.toDigits 10 n).map Char.toUInt8

/-- An integer in decimal notation, with a sign if it is negative. -/
def ofInt : Int → Text
  | .ofNat n => ofNat n
  | .negSucc n => '-'.toUInt8 :: ofNat (n + 1)

/-- The low `width` hexadecimal digits of a number, in lower case. -/
def hex : (width : Nat) → Nat → Text
  | 0, _ => []
  | width + 1, n => hex width (n / 16) ++ [(Nat.digitChar (n % 16)).toUInt8]

end Text

end Microcode
