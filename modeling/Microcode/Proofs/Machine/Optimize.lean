import Microcode.Proofs.Generator.Discipline
import Microcode.Proofs.Machine.Hoisting

/-!
# Optimised programs on the machine

Moving work before empty steps changes nothing at all, since a step without a read or a commit commutes
with an empty one. Dropping a pair of empty steps changes only what is in flight, and in a timed program
nothing is in flight there that will be committed. Together with hoisting this gives
`Datapath.settled_run_optimize`: whatever the datapath does, a generated program and the optimised one
end in the same memory, address register, datapath state and input registers.
-/

namespace Microcode

open Word Program

namespace Datapath

variable {Mem Adr Dat Val : Type*} (d : Datapath Mem Adr Dat Val)

/-! ## Moving work -/

/-- A step that is not pinned reads nothing. -/
theorem request?_eq_none {x : Step} (h : x.isPinned = false) : x.word.request? = none := by
  rw [Word.request?, (Step.has_eq_false_of_not_isPinned h).2.1]
  rfl

/-- A step that is not pinned commits nothing. -/
theorem commit?_eq_none {x : Step} (h : x.isPinned = false) : x.word.commit? = none := by
  rw [Word.commit?, (Step.has_eq_false_of_not_isPinned h).2.2]
  rfl

/-- A step that is not pinned commutes with an empty one. -/
theorem step_nop_comm {x : Step} (h : x.isPinned = false) (s : MachineState Mem Adr Dat Val) :
    d.step .nop (d.step x s) = d.step x (d.step .nop s) := by
  -- without a read and a commit, a step leaves alone what an empty step changes
  have hreq := request?_eq_none h
  have hcom := commit?_eq_none h
  rw [step_nop, step_nop]
  unfold step
  rw [hreq, hcom]
  rfl

/-- A step that is not pinned can change places with empty steps. -/
theorem step_run_replicate {x : Step} (h : x.isPinned = false) (n : Nat)
    (s : MachineState Mem Adr Dat Val) :
    d.step x (d.run (List.replicate n .nop) s) = d.run (List.replicate n .nop) (d.step x s) := by
  induction n generalizing s with
  | zero => rfl
  | succ n ih => rw [List.replicate_succ, run_cons, run_cons, ih, d.step_nop_comm h]

/-- Held empty steps may be executed before the rest. -/
theorem run_trickleAfter (held : Nat) (p : Program) (s : MachineState Mem Adr Dat Val) :
    d.run (trickleAfter held p).1 s = d.run (List.replicate held .nop ++ p) s := by
  induction p generalizing held s with
  | nil => rw [trickleAfter, List.append_nil]
  | cons x p ih =>
    rw [trickleAfter]
    by_cases hn : x.isNop = true
    · rw [if_pos hn, ih, Step.isNop_iff.1 hn, List.replicate_succ', List.append_assoc,
        List.singleton_append]
    · rw [if_neg hn]
      by_cases hp : x.isPinned = true
      · rw [if_pos hp]
        dsimp only
        rw [run_append, run_cons, ih 0, List.replicate_zero, List.nil_append, run_append, run_cons]
      · rw [if_neg hp]
        dsimp only
        rw [Bool.not_eq_true] at hp
        rw [run_cons, ih, run_append, run_append, run_cons, d.step_run_replicate hp]

/-- Moving work to earlier steps does not change what a program does. -/
theorem run_trickle (p : Program) (s : MachineState Mem Adr Dat Val) :
    d.run p.trickle.1 s = d.run p s :=
  d.run_trickleAfter 0 p s

/-! ## Dropping empty steps -/

/-- Two states that differ at most in reads in flight that are not due: `second` and `first` say which
are. -/
structure AgreesOn (second first : Bool) (s s' : MachineState Mem Adr Dat Val) : Prop where
  core : s.core = s'.core
  mems : s.mems = s'.mems
  second : second = true → s.second = s'.second
  first : first = true → s.first = s'.first

variable {d}

/-- States that agree on what is in flight do so after the same step. -/
theorem AgreesOn.step {second first : Bool} {s s' : MachineState Mem Adr Dat Val}
    (h : AgreesOn second first s s') {x : Step} (hx : x.word.has .iwt = second) (read : Bool) :
    AgreesOn first read (d.step x s) (d.step x s') := by
  have hcore : d.coreAfter x s = d.coreAfter x s' := by
    unfold coreAfter
    rw [h.core, h.mems]
  refine ⟨hcore, ?_, h.first, ?_⟩
  · show store x.word.commit? s.second s.mems = store x.word.commit? s'.second s'.mems
    rw [h.mems]
    cases second with
    | false =>
      rw [Word.commit?, hx]
      rfl
    | true => rw [h.second rfl]
  · intro _
    show x.word.request?.map (fun q => d.sample q (d.coreAfter x s)) =
      x.word.request?.map fun q => d.sample q (d.coreAfter x s')
    rw [hcore]

/-- A timed program never commits what is not due. -/
theorem settled_run_congr {odd second first : Bool} {p : Program} (hp : Timed odd second first p)
    {s s' : MachineState Mem Adr Dat Val} (h : AgreesOn second first s s') :
    (d.run p s).settled = (d.run p s').settled := by
  induction p generalizing odd second first s s' with
  | nil =>
    rw [run_nil, run_nil, MachineState.settled, MachineState.settled, h.core, h.mems]
  | cons x p ih =>
    obtain ⟨-, hx, hp⟩ := hp
    exact ih hp (h.step hx _)

/-- Dropping pairs of empty steps does not change where a program ends, once nothing is in flight. -/
theorem settled_run_compact {odd second first : Bool} {p : Program} (hp : Timed odd second first p)
    (s : MachineState Mem Adr Dat Val) : (d.run p.compact s).settled = (d.run p s).settled := by
  induction p using compact.induct generalizing odd second first s with
  | case1 x y p hn ih =>
    rw [compact, if_pos hn]
    rw [Bool.and_eq_true, Step.isNop_iff, Step.isNop_iff] at hn
    obtain ⟨rfl, rfl⟩ := hn
    obtain ⟨-, -, -, -, hp⟩ := hp
    rw [Bool.not_not] at hp
    rw [run_cons, run_cons, ← ih hp]
    -- no read is due after the two empty steps, so what they let pass is not missed
    refine settled_run_congr hp.compact ⟨?_, ?_, ?_, ?_⟩
    · rw [step_nop, step_nop]
    · rw [step_nop, step_nop]
    · exact fun hc => Bool.noConfusion hc
    · intro hc
      rw [show Step.nop.word.has .mrd = false from has_zero _] at hc
      exact Bool.noConfusion hc
  | case2 x y p hn ih =>
    rw [compact, if_neg hn]
    obtain ⟨-, -, hp⟩ := hp
    rw [run_cons, run_cons, ih hp]
  | case3 p hp' => rw [compact.eq_2 p hp']

/-! ## All passes -/

/-- **Optimising keeps the meaning of every generated program.** The optimiser accepts the program, and
for any datapath and any start the two runs end in the same core and the same input registers. -/
theorem settled_run_optimize (d : Datapath Mem Adr Dat Val) (lines : List Text)
    (s : MachineState Mem Adr Dat Val) :
    ∃ p, (Table.ofProgram (Generator.ofLines lines).steps).optimize = .ok (Table.ofProgram p) ∧
      (d.run p s).settled = (d.run (Generator.ofLines lines).steps s).settled := by
  have hgen := Generator.generated_ofLines lines
  have hhoist := hgen.disciplined.hoistLoads
  refine ⟨(Generator.ofLines lines).steps.optimize, ?_, ?_⟩
  · rw [Table.optimize, Table.program_ofProgram]
    rfl
  · unfold optimize
    rw [settled_run_compact hhoist.trickle.timed, run_trickle,
      d.run_hoistLoads hgen.disciplined (hgen.bareFrom 3)]

end Datapath

end Microcode
