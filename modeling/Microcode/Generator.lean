import Microcode.Diagnostic
import Microcode.Instruction.Encoding

/-!
# Generating a program

A generator takes the lines of a source one after another. A line that is an instruction extends the
program or changes the input selector, the shift mode or the address table; any other line that is not
silent adds a diagnostic and changes nothing else.
-/

namespace Microcode

/-- What is carried from line to line. -/
structure Generator where
  steps : Program
  /-- The entries of the address table, as they were written. -/
  madrs : List Text
  /-- The selected input. -/
  input : Input
  /-- The shift mode in force. -/
  mode : ShiftMode
  errors : List Diagnostic
deriving DecidableEq, Repr

namespace Generator

/-- The generator before the first line. -/
def initial : Generator :=
  ⟨[], [], 0, .sat, []⟩

/-- A step that does nothing, where the next step of an instruction would have a wrong index. -/
def filler (g : Generator) (i : Instruction) : Program :=
  if i.needsOdd && g.steps.length % 2 == 0 then [.nop] else []

/-- Appends the steps of an instruction. -/
def emit (g : Generator) (i : Instruction) : Generator :=
  { g with steps := g.steps ++ g.filler i ++ i.block g.input g.mode }

/-- Executes an instruction. -/
def execute (g : Generator) : Instruction → Generator
  | .madrs line => { g with madrs := g.madrs ++ [line] }
  | .select input => { g with input }
  | .mode mode => { g with mode }
  | i => g.emit i

/-- Takes a line, trying the given kinds of directives in their order. -/
def lineWith (kinds : List DirectiveKind) (g : Generator) (n : Int) (text : Text) : Generator :=
  match Instruction.ofLineWith kinds text with
  | .error problem => { g with errors := g.errors ++ [⟨n, problem.message⟩] }
  | .ok none => g
  | .ok (some i) => g.execute i

/-- Takes the line with the number `n`. -/
def line (g : Generator) (n : Int) (text : Text) : Generator :=
  g.lineWith DirectiveKind.all n text

/-- Completes the program: its length has to be even. -/
def finish (g : Generator) : Generator :=
  if g.steps.length % 2 == 0 then g else { g with steps := g.steps ++ [.nop] }

/-- Takes all lines of a source, numbered from one, and completes the program. -/
def ofLines (lines : List Text) : Generator :=
  ((lines.zipIdx 1).foldl (fun g (text, n) => g.line n text) initial).finish

/-! ## What an instruction leaves alone -/

/-- Executing an instruction reports nothing. -/
@[simp] theorem errors_execute (g : Generator) (i : Instruction) : (g.execute i).errors = g.errors := by
  cases i <;> rfl

/-- Completing the program reports nothing. -/
@[simp] theorem errors_finish (g : Generator) : g.finish.errors = g.errors := by
  unfold finish
  split <;> rfl

/-- The completed program has an even length. -/
theorem length_steps_finish_even (g : Generator) : g.finish.steps.length % 2 = 0 := by
  unfold finish
  split
  · next heven => exact beq_iff_eq.1 heven
  · next hodd =>
    rw [beq_iff_eq] at hodd
    rw [List.length_append, List.length_singleton]
    omega

end Generator

end Microcode
