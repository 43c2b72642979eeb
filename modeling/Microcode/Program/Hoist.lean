import Microcode.Program.Basic

/-!
# Hoisting loads

A load reads memory at a step and commits what it read to a register two steps later. Hoisting moves the
fields of the read, and with them those of the commit, to the earliest odd step where they do no harm:

* no step that is passed uses the register, writes memory, or loads the address register that the read
  adds to its address;
* the step before the commit does not use the register either;
* the step that takes the read accesses no memory, and the one that takes the commit commits nothing.

All other fields stay where they are.
-/

namespace Microcode

namespace Word

/-- The fields that describe a memory read. -/
def readFields : List Field := [.mrd, .table, .nxadr, .adreb, .masa, .nofl]

/-- The fields that describe a commit. -/
def commitFields : List Field := [.iwt, .iwa]

/-- Whether a step takes the value of input register `r`. -/
def readsInput (w : Word) (r : Nat) : Bool :=
  w.get .ira == r && (w.has .xsel || w.has .yrl || (w.has .adrl && w.get .shift != 3))

/-- Whether a step commits to input register `r`. -/
def commitsTo (w : Word) (r : Nat) : Bool :=
  w.has .iwt && w.get .iwa == r

/-- Whether a step reads or writes input register `r`. -/
def uses (w : Word) (r : Nat) : Bool :=
  w.readsInput r || w.commitsTo r

/-- Whether a read for register `r` cannot be moved before this step; `adreb` says that the read adds
the address register. -/
def bars (w : Word) (r : Nat) (adreb : Bool) : Bool :=
  w.uses r || w.has .mwt || (adreb && w.has .adrl)

end Word

namespace Program

/-- Whether step `i` reads memory for a commit two steps later. -/
def isLoad (p : Program) (i : Nat) : Bool :=
  (p.wordAt i).has .mrd && (p.wordAt (i + 2)).has .iwt

/-- Whether step `t` can take a read and step `t + 2` its commit. -/
def isFree (p : Program) (t : Nat) : Bool :=
  !(p.wordAt t).has .mrd && !(p.wordAt t).has .mwt && !(p.wordAt (t + 2)).has .iwt

/-- The earliest step that the load at step `i` can be moved to as far as the steps between are
concerned. -/
def reach (p : Program) (i : Nat) : Nat :=
  let r := (p.wordAt (i + 2)).get .iwa
  let adreb := (p.wordAt i).has .adreb
  i - ((p.take i).reverse.takeWhile fun s => !s.word.bars r adreb).length

/-- The step that the load at step `i` is moved to, if there is one. -/
def hoistTarget (p : Program) (i : Nat) : Option Nat :=
  let r := (p.wordAt (i + 2)).get .iwa
  if (p.wordAt i).uses r || (p.wordAt (i + 1)).uses r then none
  else
    let first := p.reach i
    (List.range i).find? fun t => first ≤ t && t % 2 == 1 && p.isFree t

/-- Changes the word of a step. -/
def modifyWord (p : Program) (i : Nat) (f : Word → Word) : Program :=
  p.modify i fun s => { s with word := f s.word }

/-- Moves the given fields from one step to another. -/
def moveFields (p : Program) (fs : List Field) (source target : Nat) : Program :=
  (p.modifyWord target (· ||| (p.wordAt source).pick fs)).modifyWord source (·.clear fs)

/-- Moves the load at step `i` to step `t`. -/
def hoist (p : Program) (i t : Nat) : Program :=
  (p.moveFields Word.readFields i t).moveFields Word.commitFields (i + 2) (t + 2)

/-- Visits step `i`: a load there is moved if it has a target, and counted. -/
def visit : Program × Nat → Nat → Program × Nat
  | (p, count), i =>
    if p.isLoad i then
      match p.hoistTarget i with
      | some t => (p.hoist i t, count + 1)
      | none => (p, count)
    else (p, count)

/-- Moves every load from step 3 on to its target, in one pass from the first to the last, and gives the
number of loads that were moved. -/
def hoistLoads (p : Program) : Program × Nat :=
  (List.range' 3 (p.length - 5)).foldl visit (p, 0)

/-! ## Lengths -/

@[simp] theorem length_modifyWord (p : Program) (i : Nat) (f : Word → Word) :
    (p.modifyWord i f).length = p.length := by
  simp [modifyWord]

@[simp] theorem length_moveFields (p : Program) (fs : List Field) (source target : Nat) :
    (p.moveFields fs source target).length = p.length := by
  simp [moveFields]

/-- Hoisting a load moves fields between steps; it adds no step and removes none. -/
@[simp] theorem length_hoist (p : Program) (i t : Nat) : (p.hoist i t).length = p.length := by
  simp [hoist]

end Program

end Microcode
