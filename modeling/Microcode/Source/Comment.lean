import Microcode.Text.Basic

/-!
# Block comments

A block comment runs from `/*` to the next `*/` after it, or to the end of the text. Removing it leaves
the newlines that it contains, so that every line keeps its number.
-/

namespace Microcode

namespace Comment

/-- What opens a comment. -/
def opening : Text := ascii "/*"

/-- What closes a comment. -/
def closing : Text := ascii "*/"

/-- The newlines of a text. -/
def newlines (s : Text) : Text :=
  List.replicate (s.count Text.newline) Text.newline

/-- A text without its block comments. -/
structure Stripped where
  text : Text
  /-- The line on which a comment starts that is not closed. -/
  openLine : Option Nat
deriving DecidableEq, Repr

/-- Cutting makes a text shorter, by the length of the mark at least. -/
theorem length_after_lt {mark s before after : Text} (hm : mark ≠ [])
    (h : Text.cut mark s = some (before, after)) : after.length < s.length := by
  have hpos : 0 < mark.length := List.length_pos_iff.2 hm
  rw [Text.eq_of_cut_eq_some h]
  simp only [List.length_append]
  omega

/-- Removes the comments of a text that starts on the given line. -/
def stripFrom (line : Nat) (s : Text) : Stripped :=
  match _hopen : Text.cut opening s with
  | none => ⟨s, none⟩
  | some (before, rest) =>
    let start := line + before.count Text.newline
    match _hclose : Text.cut closing rest with
    | none => ⟨before ++ newlines rest, some start⟩
    | some (comment, after) =>
      let stripped := stripFrom (start + comment.count Text.newline) after
      ⟨before ++ newlines comment ++ stripped.text, stripped.openLine⟩
termination_by s.length
decreasing_by
  exact Nat.lt_trans (length_after_lt (by decide) _hclose) (length_after_lt (by decide) _hopen)

/-- Removes the comments of a text. -/
def strip (s : Text) : Stripped :=
  stripFrom 1 s

end Comment

end Microcode
