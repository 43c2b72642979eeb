import Microcode.Program.Compact
import Microcode.Program.Hoist
import Microcode.Program.Trickle

/-!
# Optimising a program

The three passes in their order, on programs and on tables. A table has its words and its coefficients
in two lists, and it is a program only if the lists have the same length. A single pass also works on a
table that has more coefficients than words: it leaves the surplus alone, except that dropping steps
makes a new list of coefficients without it.
-/

namespace Microcode

namespace Program

/-- Hoists loads, moves work before the empty steps, and drops pairs of empty steps. -/
def optimize (p : Program) : Program :=
  p.hoistLoads.1.trickle.1.compact

end Program

/-- Words and coefficients in two lists. -/
structure Table where
  words : List Word
  coefs : List Int
deriving DecidableEq, Repr

/-- The two lists of a table have different lengths. -/
structure SizeMismatch where
  words : Nat
  coefs : Nat
deriving DecidableEq, Repr

/-- The wording of a mismatch. -/
def SizeMismatch.message (m : SizeMismatch) : Text :=
  ascii "coefficient table size mismatch: " ++ Text.ofNat m.words ++ ascii " steps, " ++
    Text.ofNat m.coefs ++ ascii " coefs"

namespace Table

/-- The table of a program. -/
def ofProgram (p : Program) : Table :=
  ⟨p.words, p.coefs⟩

/-- The steps that have both a word and a coefficient. -/
def steps (t : Table) : Program :=
  List.zipWith Step.mk t.words t.coefs

/-- The coefficients that belong to no word. -/
def surplus (t : Table) : List Int :=
  t.coefs.drop t.words.length

/-- The program of a table. -/
def program (t : Table) : Except SizeMismatch Program :=
  if t.words.length = t.coefs.length then .ok t.steps else .error ⟨t.words.length, t.coefs.length⟩

/-- Puts other steps into a table. -/
def withSteps (t : Table) (p : Program) : Table :=
  ⟨p.words, p.coefs ++ t.surplus⟩

/-- Hoists loads and counts them. -/
def hoistLoads (t : Table) : Table × Nat :=
  let (p, count) := t.steps.hoistLoads
  (t.withSteps p, count)

/-- Moves work before the empty steps and counts the exchanges. -/
def trickle (t : Table) : Table × Nat :=
  let (p, count) := t.steps.trickle
  (t.withSteps p, count)

/-- Drops pairs of empty steps and counts the dropped steps. -/
def compact (t : Table) : Table × Nat :=
  let count := t.steps.dropCount
  if count = 0 then (t, 0) else (ofProgram t.steps.compact, count)

/-- Runs all passes. -/
def optimize (t : Table) : Except SizeMismatch Table :=
  (fun p => ofProgram p.optimize) <$> t.program

/-- Which steps do nothing. -/
def nops (t : Table) : List Bool :=
  t.steps.map (·.isNop)

/-- Splitting a program into a table and putting it together again changes nothing. -/
@[simp] theorem steps_ofProgram (p : Program) : (ofProgram p).steps = p := by
  induction p with
  | nil => rfl
  | cons s p ih => simp_all [ofProgram, steps, Program.words, Program.coefs]

/-- A table whose lists have one length is that of its steps. -/
theorem ofProgram_steps {t : Table} (h : t.words.length = t.coefs.length) : ofProgram t.steps = t := by
  have hzip : t.steps = (t.words.zip t.coefs).map fun wc => Step.mk wc.1 wc.2 := by
    rw [steps, List.zip, List.map_zipWith]
  have hwords : t.steps.map Step.word = t.words := by
    rw [hzip, List.map_map]
    exact List.map_fst_zip (Nat.le_of_eq h)
  have hcoefs : t.steps.map Step.coef = t.coefs := by
    rw [hzip, List.map_map]
    exact List.map_snd_zip (Nat.le_of_eq h.symm)
  rw [ofProgram, Program.words, Program.coefs, hwords, hcoefs]

/-- The table of a program is a table of that program. -/
@[simp] theorem program_ofProgram (p : Program) : (ofProgram p).program = .ok p := by
  simp only [program, steps_ofProgram]
  simp [ofProgram, Program.words, Program.coefs]

end Table

end Microcode
