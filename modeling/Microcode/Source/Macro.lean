import Microcode.Diagnostic
import Microcode.Text.Blank

/-!
# Macros

A macro gives a name to a text. Expanding a line replaces every whole word that names a macro by its
value, again and again until nothing changes. A line that still changes after a hundred rounds, or that
outgrows the limit on its length, is given up with a diagnostic.
-/

namespace Microcode

/-- A named text with the line of its definition. -/
structure Macro where
  name : Text
  value : Text
  line : Nat
deriving DecidableEq, Repr

/-- The macros defined so far, in the order of their definitions. -/
abbrev MacroTable := List Macro

/-- A piece of a line: a maximal run of word bytes, or another byte. -/
inductive Piece where
  | word (w : Text)
  | other (b : UInt8)
deriving DecidableEq, Repr

namespace Piece

/-- Puts a byte in front of the pieces of a line. -/
def push (b : UInt8) (ps : List Piece) : List Piece :=
  if Text.isWord b then
    match ps with
    | word w :: ps => word (b :: w) :: ps
    | ps => word [b] :: ps
  else other b :: ps

/-- The pieces of a line. -/
def ofText (s : Text) : List Piece :=
  s.foldr push []

/-- The bytes of a piece. -/
def text : Piece → Text
  | word w => w
  | other b => [b]

/-- The bytes of a pushed byte are that byte and the rest. -/
theorem flatMap_text_push (b : UInt8) (ps : List Piece) :
    (push b ps).flatMap text = b :: ps.flatMap text := by
  unfold push
  split
  · split <;> simp [text]
  · simp [text]

/-- A line is its pieces. -/
theorem flatMap_text_ofText (s : Text) : (ofText s).flatMap text = s := by
  induction s with
  | nil => rfl
  | cons b s ih =>
    rw [ofText, List.foldr_cons, flatMap_text_push]
    exact congrArg (b :: ·) ih

end Piece

namespace MacroTable

/-- The macro with a given name. -/
def find (t : MacroTable) (name : Text) : Option Macro :=
  List.find? (fun m => m.name == name) t

/-- What stands for a word: the value of the macro, or the word itself. -/
def expandWord (t : MacroTable) (w : Text) : Text :=
  match t.find w with
  | some m => m.value
  | none => w

/-- What stands for a piece. -/
def expandPiece (t : MacroTable) : Piece → Text
  | .word w => t.expandWord w
  | .other b => [b]

/-- Replaces every whole word that names a macro by its value. -/
def substitute (t : MacroTable) (line : Text) : Text :=
  (Piece.ofText line).flatMap t.expandPiece

/-- Whether a replacement changes one of the words of a line. -/
def changes (t : MacroTable) (line : Text) : Bool :=
  (Piece.ofText line).any fun piece => t.expandPiece piece != piece.text

/-- The number of rounds after which a line is given up. -/
def maxRounds : Nat := 100

/-- The length above which a line is given up. -/
def maxLength : Nat := 65536

/-- Expands a line for a number of rounds. The flag says that the line was given up. -/
def expandFor (t : MacroTable) : (rounds : Nat) → (line : Text) → Text × Bool
  | 0, line => (line, true)
  | rounds + 1, line =>
    if t.changes line then
      let next := t.substitute line
      if maxLength < next.length then (next, true) else expandFor t rounds next
    else (line, false)

/-- Expands a line. The flag says that the line was given up. -/
def expand (t : MacroTable) (line : Text) : Text × Bool :=
  expandFor t maxRounds line

/-- The macros in the order of their names. -/
def sorted (t : MacroTable) : List Macro :=
  List.mergeSort t fun a b => a.name ≤ b.name

end MacroTable

/-! ## Definitions -/

/-- The word that starts a definition. -/
def defineWord : Text := ascii "#define"

/-- Whether a trimmed line is a definition, well formed or not. -/
def isDefine (line : Text) : Bool :=
  defineWord.isPrefixOf line &&
    match line.drop defineWord.length with
    | [] => true
    | b :: _ => Text.isGap b

/-- The name and the value that a line defines: after the word of a definition there is a gap, a name that
does not start with a digit, a gap, and a value. -/
def parseDefine (line : Text) : Option (Text × Text) :=
  let rest := (line.drop defineWord.length).dropWhile Text.isGap
  let name := rest.takeWhile Text.isWord
  let behind := rest.dropWhile Text.isWord
  match name, behind with
  | b :: _, c :: _ =>
    let value := Text.trim behind
    if Text.isDigit b || !Text.isGap c || value.isEmpty then none else some (name, value)
  | _, _ => none

end Microcode
