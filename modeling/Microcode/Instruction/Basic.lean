import Microcode.Directive.Grammar
import Microcode.Instruction.Operand

/-!
# Instructions

An instruction is a directive whose operands have been checked. Whether a line is an instruction depends
on that line alone, and a line that is none has exactly one problem.

* `Instruction.ofDirective` checks a directive;
* `Instruction.ofLine` reads and checks a line.
-/

namespace Microcode

/-! ## Instructions -/

/-- A directive with checked operands. -/
inductive Instruction where
  /-- An entry of the address table, kept as it was written. -/
  | madrs (line : Text)
  /-- Selects the input. -/
  | select (input : Input)
  /-- Sets the shift mode. -/
  | mode (mode : ShiftMode)
  /-- Sends the result somewhere. -/
  | output (target : Output (Fin mixerCount))
  /-- Multiplies and accumulates. -/
  | mac (m : Mac)
  /-- Stores the accumulator in a temporary register. -/
  | storeTemp (register : Fin tempCount)
  /-- Stores the accumulator in memory. -/
  | store (access : Access)
  /-- Loads an input register from memory. -/
  | load (access : Access) (register : Fin memsCount)
deriving DecidableEq, Repr

/-- Why a line is not an instruction. -/
inductive LineProblem where
  /-- It is a directive with a wrong operand. -/
  | invalid (line : Text) (cause : Rejection)
  /-- It is no directive. -/
  | unhandled (line : Text)
deriving DecidableEq, Repr

/-- The wording of a problem. -/
def LineProblem.message : LineProblem → Text
  | invalid line cause => ascii "Invalid instruction: " ++ line ++ ascii ": " ++ cause.message
  | unhandled line => ascii "Unhandled instruction: " ++ line

namespace Instruction

/-- Checks a store. -/
def ofStore (noFloat : Bool) : Destination → Except Rejection Instruction
  | .temp i => if noFloat then .error .needsMemory else storeTemp <$> checkTemp i
  | .memory a => store <$> Access.ofAddress noFloat a

/-- Checks a load: the address first, then the register. -/
def ofLoad (noFloat : Bool) (a : Address) (register : Int) : Except Rejection Instruction := do
  let access ← Access.ofAddress noFloat a
  let r ← checkIndex "mems" memsCount register
  return load access r

/-- Checks the directive that stands on a line. -/
def ofDirective (line : Text) : Directive → Except Rejection Instruction
  | .madrs _ _ => .ok (madrs line)
  | .input bank i => select <$> bank.input i
  | .output target => output <$> target.check
  | .mac x y b => mac <$> Mac.ofOperands x.value y.value (b.map (·.value))
  | .smode m => .ok (mode m)
  | .store noFloat target => ofStore noFloat target.value
  | .load noFloat source register => ofLoad noFloat source.value register

/-- Whether a trimmed line has nothing to execute: it is empty, a comment or a line for another tool. -/
def isSilent (line : Text) : Bool :=
  line.isEmpty || (ascii "#").isPrefixOf line || (ascii "//").isPrefixOf line

/-- Reads a line, trying the given kinds of directives in their order. -/
def ofLineWith (kinds : List DirectiveKind) (line : Text) : Except LineProblem (Option Instruction) :=
  let text := line.trim
  if isSilent text then .ok none
  else match Directive.read? kinds text with
    | none => .error (.unhandled text)
    | some d => (some <$> ofDirective text d).mapError (.invalid text)

/-- Reads a line: an instruction, nothing for a silent line, or a problem. -/
def ofLine (line : Text) : Except LineProblem (Option Instruction) :=
  ofLineWith DirectiveKind.all line

end Instruction

end Microcode
