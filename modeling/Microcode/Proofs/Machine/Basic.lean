import Mathlib.Logic.Function.Basic
import Microcode.Instruction.Operand
import Microcode.Proofs.Program.Hoisting

/-!
# An abstract machine for programs

The machine has a memory, an address register, other state of the datapath, 32 input registers, and the
values of the last two memory reads, which are still in flight. What the datapath computes is left open:
a `Datapath` is any function of what a step can tell it, with three laws.

* An empty word without a coefficient changes nothing.
* Memory changes only if the word writes memory.
* The address register changes only if the word loads it.

A step fetches an input register, lets the datapath act, samples memory if it reads, and commits the
value that was sampled two steps before.
-/

namespace Microcode

/-! ## What a word asks for -/

namespace Word

/-- What the datapath sees of a word: nothing of commits, and nothing of memory reads. The address of a
memory write is for the datapath. -/
def action (w : Word) : Word :=
  if w.has .mwt then w.clear commitFields else w.work

/-- The input register whose value a word takes. -/
def input? (w : Word) : Option (Fin memsCount) :=
  if h : (w.has .xsel || w.has .yrl || (w.has .adrl && w.get .shift != 3)) = true ∧ w.get .ira < memsCount
  then some ⟨w.get .ira, h.2⟩ else none

/-- The fields of the memory read of a word. -/
def request? (w : Word) : Option Word :=
  if w.has .mrd then some (w.pick readFields) else none

/-- The input register that a word commits to. -/
def commit? (w : Word) : Option (Fin memsCount) :=
  if w.has .iwt then some ⟨w.get .iwa, w.get_lt .iwa⟩ else none

/-- A word that does not use a register does not take its value. -/
theorem input?_ne_of_not_uses {w : Word} {r : Fin memsCount} (h : w.uses r = false) :
    w.input? ≠ some r := by
  intro hin
  unfold input? at hin
  split at hin
  · next hc =>
    have hr : w.get .ira = r := congrArg Fin.val (Option.some.inj hin)
    rw [uses, Bool.or_eq_false_iff, readsInput, hr, beq_self_eq_true, Bool.true_and, hc.1] at h
    exact Bool.noConfusion h.1
  · exact Option.noConfusion rfl (heq_of_eq hin)

/-- A word that does not use a register does not commit to it. -/
theorem commit?_ne_of_not_uses {w : Word} {r : Fin memsCount} (h : w.uses r = false) :
    w.commit? ≠ some r := by
  intro hc
  unfold commit? at hc
  split at hc
  · next hi =>
    have hr : w.get .iwa = r := congrArg Fin.val (Option.some.inj hc)
    rw [uses, Bool.or_eq_false_iff, commitsTo, hi, hr, beq_self_eq_true] at h
    exact Bool.noConfusion h.2
  · exact Option.noConfusion rfl (heq_of_eq hc)

/-- The input of a word depends on its work only. -/
theorem input?_congr {v w : Word} (h : v.work = w.work) : v.input? = w.input? := by
  unfold input?
  simp only [@has_eq_of_work_eq v w h .xsel (by decide) (by decide),
    @has_eq_of_work_eq v w h .yrl (by decide) (by decide),
    @has_eq_of_work_eq v w h .adrl (by decide) (by decide),
    @get_eq_of_work_eq v w h .shift (by decide) (by decide),
    @get_eq_of_work_eq v w h .ira (by decide) (by decide)]

/-- A word without work takes no input. -/
theorem input?_eq_none {w : Word} (h : w.work = 0) : w.input? = none := by
  rw [@input?_congr w 0 (by rw [h, work_zero])]
  simp [input?]

/-- What a step does besides loading is told by the other fields. -/
theorem has_action_of_not_mem {w : Word} {f : Field} (hr : f ∉ readFields) (hc : f ∉ commitFields) :
    w.action.has f = w.has f := by
  unfold action
  split
  · rw [has_clear, decide_eq_false hc]
    rfl
  · exact has_work hr hc

@[simp] theorem action_zero : (0 : Word).action = 0 := by
  simp [action]

@[simp] theorem input?_zero : (0 : Word).input? = none :=
  input?_eq_none work_zero

@[simp] theorem request?_zero : (0 : Word).request? = none := by
  simp [request?]

@[simp] theorem commit?_zero : (0 : Word).commit? = none := by
  simp [commit?]

end Word

/-! ## The machine -/

/-- Memory, address register and the rest of the datapath. -/
structure Core (Mem Adr Dat : Type*) where
  mem : Mem
  adr : Adr
  dat : Dat

/-- What the open parts of the machine do. -/
structure Datapath (Mem Adr Dat Val : Type*) where
  /-- Acts on the core, given what the datapath sees of a word, the coefficient and the input. -/
  act : Word → Int → Option Val → Core Mem Adr Dat → Core Mem Adr Dat
  /-- Samples memory, given the fields of the read and the address register if the read adds it. -/
  read : Word → Mem → Option Adr → Val
  act_zero : ∀ v c, act 0 0 v c = c
  mem_act : ∀ w k v c, w.has .mwt = false → (act w k v c).mem = c.mem
  adr_act : ∀ w k v c, w.has .adrl = false → (act w k v c).adr = c.adr

/-- A state of the machine. -/
@[ext]
structure MachineState (Mem Adr Dat Val : Type*) where
  core : Core Mem Adr Dat
  /-- The input registers that memory is loaded to. -/
  mems : Fin memsCount → Val
  /-- What the step before sampled. -/
  first : Option Val
  /-- What the step before that sampled. -/
  second : Option Val

/-- What is left when nothing is in flight any more. -/
def MachineState.settled {Mem Adr Dat Val : Type*} (s : MachineState Mem Adr Dat Val) :
    Core Mem Adr Dat × (Fin memsCount → Val) :=
  (s.core, s.mems)

namespace Datapath

variable {Mem Adr Dat Val : Type*} (d : Datapath Mem Adr Dat Val)

/-- The value that a read samples. -/
def sample (q : Word) (c : Core Mem Adr Dat) : Val :=
  d.read q c.mem (if q.has .adreb then some c.adr else none)

/-- The core after a step. -/
def coreAfter (x : Step) (s : MachineState Mem Adr Dat Val) : Core Mem Adr Dat :=
  d.act x.word.action x.coef (x.word.input?.map s.mems) s.core

/-- The registers after a commit; nothing is stored where nothing was sampled. -/
def store (register : Option (Fin memsCount)) (value : Option Val) (mems : Fin memsCount → Val) :
    Fin memsCount → Val :=
  match register, value with
  | some r, some v => Function.update mems r v
  | _, _ => mems

/-- Executes a step. -/
def step (x : Step) (s : MachineState Mem Adr Dat Val) : MachineState Mem Adr Dat Val where
  core := d.coreAfter x s
  mems := store x.word.commit? s.second s.mems
  first := x.word.request?.map fun q => d.sample q (d.coreAfter x s)
  second := s.first

/-- Executes a program. -/
def run (p : Program) (s : MachineState Mem Adr Dat Val) : MachineState Mem Adr Dat Val :=
  p.foldl (fun s x => d.step x s) s

@[simp] theorem run_nil (s : MachineState Mem Adr Dat Val) : d.run [] s = s := rfl

@[simp] theorem run_cons (x : Step) (p : Program) (s : MachineState Mem Adr Dat Val) :
    d.run (x :: p) s = d.run p (d.step x s) := rfl

theorem run_append (p q : Program) (s : MachineState Mem Adr Dat Val) :
    d.run (p ++ q) s = d.run q (d.run p s) := by
  unfold run
  rw [List.foldl_append]

/-- The state one step later. -/
theorem run_take_succ {p : Program} {k : Nat} (h : k < p.length) (s : MachineState Mem Adr Dat Val) :
    d.run (p.take (k + 1)) s = d.step p[k] (d.run (p.take k) s) := by
  rw [List.take_succ_eq_append_getElem h, run_append]
  rfl

@[simp] theorem store_none (value : Option Val) (mems : Fin memsCount → Val) :
    store none value mems = mems := rfl

@[simp] theorem store_some (r : Fin memsCount) (v : Val) (mems : Fin memsCount → Val) :
    store (some r) (some v) mems = Function.update mems r v := rfl

/-- An empty step only lets time pass. -/
theorem step_nop (s : MachineState Mem Adr Dat Val) :
    d.step .nop s = { s with first := none, second := s.first } := by
  have hcore : d.coreAfter .nop s = s.core := d.act_zero _ _
  unfold step
  rw [hcore]
  simp [Step.nop]

end Datapath

end Microcode
