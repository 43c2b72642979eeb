import Microcode.Text.Basic

/-!
# Diagnostics

A diagnostic is a message about a line of the source. Lines count from one; line zero stands for the
program as a whole. A compilation collects all its diagnostics in a list, and a list that is not empty
is a failure.
-/

namespace Microcode

/-- A message about a line. -/
structure Diagnostic where
  line : Int
  message : Text
deriving DecidableEq, Repr

namespace Diagnostic

/-- A diagnostic as it is shown. -/
def render (d : Diagnostic) : Text :=
  ascii "line " ++ Text.ofInt d.line ++ ascii ": " ++ d.message

/-- A list of diagnostics as it is shown: one by itself, several under a headline. -/
def renderList : List Diagnostic → Text
  | [] => ascii "no errors"
  | [d] => d.render
  | ds => Text.ofNat ds.length ++ ascii " errors:" ++ ds.flatMap fun d => ascii "\n\t" ++ d.render

/-- The text of a failure, if the list is one. -/
def failure? (ds : List Diagnostic) : Option Text :=
  if ds.isEmpty then none else some (renderList ds)

end Diagnostic

/-! ## Messages from templates -/

/-- A value that is put into a template. -/
inductive Argument where
  | text (t : Text)
  | int (n : Int)
deriving DecidableEq, Repr

/-- An argument as text. -/
def Argument.render : Argument → Text
  | text t => t
  | int n => Text.ofInt n

/-- Fills a template: `%s` and `%d` stand for the arguments in their order and `%%` for a percent sign.
A mark without an argument stays. -/
def fill : (template : Text) → List Argument → Text
  | [], _ => []
  | [b], _ => [b]
  | b :: c :: s, args =>
    if b != '%'.toUInt8 then b :: fill (c :: s) args
    else if c == '%'.toUInt8 then c :: fill s args
    else if c == 's'.toUInt8 || c == 'd'.toUInt8 then
      match args with
      | a :: args => a.render ++ fill s args
      | [] => b :: c :: fill s []
    else b :: fill (c :: s) args

/-- A diagnostic whose message is a filled template. -/
def Diagnostic.ofTemplate (line : Int) (template : Text) (args : List Argument) : Diagnostic :=
  ⟨line, fill template args⟩

end Microcode
