import Microcode.Program.Optimize

/-!
# Listings

The listing of a program has the entries of the address table, one on a line, and then the steps in
their order. A step has a line for its word, after a line for its coefficient if that is not zero.

How a number is set in a line is fixed here and in `Word.render`: indices and coefficients in decimal without padding,
words field by field. No formatter is taken from elsewhere.
-/

namespace Microcode

/-- The parts of a listing. -/
structure Listing where
  madrs : List Text
  table : Table
deriving DecidableEq, Repr

namespace Listing

/-- The lines of the step at index `i`. -/
def stepText (s : Step) (i : Nat) : Text :=
  (if s.coef = 0 then []
    else ascii "COEF[" ++ Text.ofNat i ++ ascii "] = " ++ Text.ofInt s.coef ++ ascii "\n") ++
    ascii "MPRO[" ++ Text.ofNat i ++ ascii "] =" ++ s.word.render ++ ascii "\n"

/-- The lines of a program. -/
def programText (p : Program) : Text :=
  p.zipIdx.flatMap fun (s, i) => stepText s i

/-- The lines of the address table. -/
def madrsText (madrs : List Text) : Text :=
  madrs.flatMap fun line => line ++ ascii "\n"

/-- The text of a listing. -/
def render (l : Listing) : Except SizeMismatch Text := do
  let p ← l.table.program
  return madrsText l.madrs ++ programText p

end Listing

/-! ## Whatever is to be shown -/

/-- A value that is to be shown. -/
inductive Showable where
  | listing (l : Listing)
  | word (w : Word)
  /-- A value of another type, of which only the name of the type matters. -/
  | other (typeName : String)

/-- Why a value cannot be shown. -/
inductive ShowError where
  | sizeMismatch (cause : SizeMismatch)
  | unsupported (typeName : String)
deriving DecidableEq, Repr

/-- The wording of an error. -/
def ShowError.message : ShowError → Text
  | sizeMismatch cause => cause.message
  | unsupported typeName => ascii "unsupported type: " ++ ascii typeName

/-- Appends the text of a value to what is already there. -/
def Showable.appendTo (before : Text) : Showable → Except ShowError Text
  | listing l => (l.render.mapError .sizeMismatch).map (before ++ ·)
  | word w => .ok (before ++ w.render)
  | other typeName => .error (.unsupported typeName)

end Microcode
