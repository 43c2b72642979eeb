import Microcode.Literal
import Microcode.Text.Quoted

/-!
# Why a text cannot be read

A failure is a cause; its wording is in `Failure.message`. Parsers appear in messages under their
labels, which are texts that the parsers carry.

The wording is fixed here as a whole, with what stands in front of a cause (`after`, `closing`, `line`), how
alternatives are listed (`Failure.enumeration`), and how a token that is not an integer is reported.
-/

namespace Microcode

/-- Why a parser does not accept a text. -/
inductive Failure where
  /-- The text does not start with what the label names. -/
  | missing (label : Text)
  /-- There is nothing but blanks. -/
  | noText
  /-- There is no token where an integer should stand. -/
  | noInteger
  /-- The token is not an integer literal. -/
  | badInteger (token : Text) (cause : LiteralError)
  /-- What stands inside a bracket is not accepted. -/
  | after (opening : Text) (cause : Failure)
  /-- The bracket is not closed. -/
  | closing (opening : Text) (cause : Failure)
  /-- None of the alternatives got anywhere. -/
  | noneOf (labels : List Text)
  /-- A whole line is not accepted. -/
  | line (cause : Failure)
deriving DecidableEq, Repr

namespace Failure

/-- A list of alternatives in words. -/
def enumeration : List Text → Text
  | [] => ascii "nothing"
  | [a] => a
  | [a, b] => a ++ ascii " or " ++ b
  | a :: rest => a ++ ascii ", " ++ enumeration rest

/-- The wording of a failure. -/
def message : Failure → Text
  | missing label => label ++ ascii " expected"
  | noText => ascii "text expected"
  | noInteger => ascii "Int expected"
  | badInteger token cause =>
    ascii "Int expected: strconv.ParseInt: parsing " ++ Text.quote token ++ ascii ": " ++ cause.message
  | after opening cause => ascii "after " ++ opening ++ ascii ": " ++ cause.message
  | closing opening cause => ascii "closing " ++ opening ++ ascii ": " ++ cause.message
  | noneOf labels => ascii "expected " ++ enumeration labels
  | line cause => ascii "parse line: " ++ cause.message

end Failure

end Microcode
