import Microcode.Parser.Token

/-!
# Reading a whole line

A line is accepted if a parser reads it from its first token on and only line ends are left.
-/

namespace Microcode

/-- Why a line is not accepted. -/
inductive LineError (α : Type) where
  /-- The parser failed. -/
  | failed (cause : Failure)
  /-- The parser read a value, and at `pos` there is more. -/
  | trailing (value : α) (pos : Nat)
deriving DecidableEq, Repr

namespace LineError

/-- The wording of a line error. -/
def message {α : Type} : LineError α → Text
  | failed cause => (Failure.line cause).message
  | trailing _ pos => ascii "unexpected text at pos " ++ Text.ofNat pos

end LineError

namespace Parser

/-- Reads a whole line. -/
def readLine {α : Type} (p : Parser α) (line : Text) : Except (LineError α) α :=
  match p.token (Cursor.ofText line 0) with
  | .error stop => .error (.failed stop.cause)
  | .ok (a, c) =>
    let d := ByteSet.lineEnds.skip c
    if d.rest.isEmpty then .ok a else .error (.trailing a d.pos)

end Parser

end Microcode
