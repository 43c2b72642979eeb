import Microcode.Word.Basic

/-!
# Steps

A microprogram is a list of steps. A step is a word together with the coefficient that the multiplier
may use in it.
-/

namespace Microcode

/-- A word and its coefficient. -/
@[ext]
structure Step where
  word : Word
  coef : Int
deriving DecidableEq, Repr

namespace Step

/-- The step that does nothing. -/
def nop : Step := ⟨0, 0⟩

/-- A step without a coefficient. -/
def ofWord (w : Word) : Step := ⟨w, 0⟩

/-- Whether a step does nothing. -/
def isNop (s : Step) : Bool :=
  s.word == 0 && s.coef == 0

/-- Only the step that does nothing and has no coefficient counts as empty. -/
@[simp] theorem isNop_iff {s : Step} : s.isNop = true ↔ s = nop := by
  simp [isNop, nop, Step.ext_iff]

end Step

/-- A microprogram. -/
abbrev Program := List Step

namespace Program

/-- The number of steps that the signal processor executes for a sample. -/
def maxSteps : Nat := 128

/-- The word of the step at an index; a step that does not exist does nothing. -/
def wordAt (p : Program) (i : Nat) : Word :=
  (p[i]?.getD Step.nop).word

/-- The words of a program. -/
def words (p : Program) : List Word :=
  p.map (·.word)

/-- The coefficients of a program. -/
def coefs (p : Program) : List Int :=
  p.map (·.coef)

end Program

end Microcode
