import Microcode.Instruction.Basic
import Microcode.Program.Basic

/-!
# Encoding of instructions

An instruction is encoded as a block of steps, given the input selector and the shift mode that are in
force. Memory is accessed at odd steps only, and what is read arrives two steps later:

* a store is one step;
* a load is a step that reads, a step in between, and a step that commits to a register;
* an address register loaded from the accumulator is late by one step, which is left empty.
-/

namespace Microcode

/-! ## Words -/

/-- The code of a shift mode. -/
def ShiftMode.code : ShiftMode → Nat
  | sat => 0
  | sat2 => 1
  | trim2 => 2
  | trim => 3

/-- The shift code under which the address register is loaded from the accumulator, a step late. -/
def lateShift : Nat := 3

/-- A word that computes the accumulator once more. -/
def keepAccumulator : Word :=
  ((0 : Word).set .ysel 1).set .bsel 1

/-- Sets a field to one if a condition holds. -/
def Word.flag (w : Word) (f : Field) (on : Bool) : Word :=
  if on then w.set f 1 else w

/-- The address fields of a memory access. -/
def Access.word (a : Access) : Word :=
  (((((0 : Word).set .masa a.entry).flag .table a.table).flag .nxadr a.next).flag .adreb a.adrs).flag
    .nofl a.noFloat

/-- The code of a factor. -/
def Factor.code : Factor Coefficient → Nat
  | .shifted => 0
  | .coefficient _ => 1
  | .yreg => 2
  | .yregLow => 3

/-- The coefficient that a factor needs. -/
def Factor.coef : Factor Coefficient → Int
  | .coefficient c => c.val
  | _ => 0

/-- The step of a multiplication. -/
def Mac.step (input : Input) (m : Mac) : Step :=
  let x := if m.fromInput then ((0 : Word).set .xsel 1).set .ira input else 0
  let w := (x.set .tra m.register).set .ysel m.factor.code
  let w := (w.flag .zero (m.addend == .zero)).flag .bsel (m.addend == .accumulator)
  ⟨w.flag .negb m.negated, m.factor.coef⟩

/-- The word of an output. -/
def Output.word (input : Input) (mode : ShiftMode) : Output (Fin mixerCount) → Word
  | .yreg => (keepAccumulator.set .yrl 1).set .ira input
  | .adrs => ((keepAccumulator.set .adrl 1).set .ira input).set .shift mode.code
  | .adrsShifted => (keepAccumulator.set .adrl 1).set .shift lateShift
  | .mixer i => ((keepAccumulator.set .ewt 1).set .ewa i).set .shift mode.code

/-- Whether a word loads the address register from the accumulator, so that a step has to pass before
the address can be used. -/
def Word.loadsAddressLate (w : Word) : Bool :=
  w.has .adrl && w.get .shift == lateShift

namespace Instruction

/-- The steps of an instruction. -/
def block (input : Input) (mode : ShiftMode) : Instruction → List Step
  | output target =>
    let w := target.word input mode
    if w.loadsAddressLate then [.ofWord w, .nop] else [.ofWord w]
  | mac m => [m.step input]
  | storeTemp r => [.ofWord (((keepAccumulator.set .twt 1).set .twa r).set .shift mode.code)]
  | store a => [.ofWord ((a.word.set .mwt 1).set .shift mode.code)]
  | load a r => [.ofWord (a.word.set .mrd 1), .nop, .ofWord (((0 : Word).set .iwt 1).set .iwa r)]
  | madrs _ | select _ | .mode _ => []

/-- Whether the first step of an instruction has to stand at an odd index, where memory is accessed. -/
def needsOdd : Instruction → Bool
  | store _ | load _ _ => true
  | _ => false

end Instruction

end Microcode
