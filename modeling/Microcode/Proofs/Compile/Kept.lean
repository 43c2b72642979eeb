import Microcode.Proofs.Compile.Schedule
import Microcode.Proofs.Program.Work

/-!
# Instructions that are kept

The passes know an empty step by its content only, so an instruction is safe from them if it is not
encoded as empty steps. This is so for every instruction but one (`Instruction.idle_block_iff`): the
multiplication `Mac.null` of the first temporary register by the shifted value, added to that register.
Any other multiplication is found in the emitted program, after the work of the lines before it.
-/

namespace Microcode

open Word

/-! ## Encodings that are not empty -/

/-- A step with a field is not empty. -/
theorem Step.ofWord_ne_nop {w : Word} {f : Field} (h : w.has f = true) : Step.ofWord w ≠ .nop := by
  intro hc
  rw [show w = 0 from congrArg Step.word hc, has_zero] at h
  exact Bool.noConfusion h

/-- A flag that is not there has not been switched on. -/
theorem Word.eq_false_of_get_flag {w : Word} {f : Field} {on : Bool} (h : (w.flag f on).get f = 0) :
    on = false := by
  cases on with
  | false => rfl
  | true => exact absurd h (has_iff.1 (has_set_one w f))

theorem has_ysel_keepAccumulator : keepAccumulator.has .ysel = true := by
  decide

/-- Every output selects a factor, so its word is not empty. -/
theorem Output.has_ysel_word (input : Input) (mode : ShiftMode) (o : Output (Fin mixerCount)) :
    (o.word input mode).has .ysel = true := by
  have hset : ∀ {w : Word} {f : Field} (v : Nat), Field.ysel ≠ f → w.has .ysel = true →
      (w.set f v).has .ysel = true := by
    intro w f v hne h
    rw [has_set_of_ne w hne]
    exact h
  have hkeep := has_ysel_keepAccumulator
  cases o with
  | yreg => exact hset _ (by decide) (hset _ (by decide) hkeep)
  | adrs => exact hset _ (by decide) (hset _ (by decide) (hset _ (by decide) hkeep))
  | adrsShifted => exact hset _ (by decide) (hset _ (by decide) hkeep)
  | mixer i => exact hset _ (by decide) (hset _ (by decide) (hset _ (by decide) hkeep))

theorem tempCount_pos : 0 < tempCount := by
  decide

/-- The first temporary register times the shifted value, plus that register. -/
def Mac.null : Mac :=
  ⟨false, .shifted, .temp, false, ⟨0, tempCount_pos⟩⟩

namespace Mac

variable {input : Input} {m : Mac}

/-- A multiplication names the register that it reads, also if that is register zero. -/
theorem get_tra_step : (m.step input).word.get .tra = m.register := by
  rw [get_step_of_ne (by decide) (by decide) (by decide), get_set_of_ne _ (by decide), get_set_self]
  exact Nat.mod_eq_of_lt m.register.isLt

/-- A multiplication that does not select the input multiplies a register. -/
theorem fromInput_of_get_step (h : (m.step input).word.get .xsel = 0) : m.fromInput = false := by
  rw [get_step_of_ne (by decide) (by decide) (by decide), get_set_of_ne _ (by decide),
    get_set_of_ne _ (by decide)] at h
  cases hx : m.fromInput with
  | false => rfl
  | true =>
    rw [hx, if_pos rfl, get_set_of_ne _ (by decide)] at h
    exact absurd h (has_iff.1 (has_set_one 0 .xsel))

/-- Without the fields for zero and for the accumulator, a register is added. -/
theorem addend_of_get_step (hz : (m.step input).word.get .zero = 0)
    (hb : (m.step input).word.get .bsel = 0) : m.addend = .temp := by
  have hzero : (m.addend == .zero) = false := by
    apply eq_false_of_get_flag
    rw [← hz]
    exact ((get_flag_of_ne _ (by decide) _).trans (get_flag_of_ne _ (by decide) _)).symm
  have hacc : (m.addend == .accumulator) = false := by
    apply eq_false_of_get_flag
    rw [← hb]
    exact (get_flag_of_ne _ (by decide) _).symm
  cases ha : m.addend with
  | zero => exact absurd hzero (by rw [ha]; decide)
  | accumulator => exact absurd hacc (by rw [ha]; decide)
  | temp => rfl

/-- A multiplication is encoded as an empty step iff every choice that it makes has the code zero. -/
theorem step_eq_nop_iff : m.step input = .nop ↔ m = .null := by
  constructor
  · intro h
    have hget : ∀ f, (m.step input).word.get f = 0 := by
      intro f
      rw [h]
      exact get_zero f
    -- each field that is zero pins down one part of the multiplication
    have hinput : m.fromInput = false := fromInput_of_get_step (hget .xsel)
    have haddend : m.addend = .temp := addend_of_get_step (hget .zero) (hget .bsel)
    have hnegated : m.negated = false := eq_false_of_get_flag (hget .negb)
    have hregister : m.register = 0 := by
      apply Fin.ext
      rw [← get_tra_step, hget]
      rfl
    have hfactor : m.factor = .shifted := by
      have hcode : m.factor.code = 0 := by rw [← get_ysel_step, hget]
      cases hf : m.factor with
      | shifted => rfl
      | coefficient c => exact absurd hcode (by rw [hf]; exact Nat.one_ne_zero)
      | yreg => exact absurd hcode (by rw [hf]; decide)
      | yregLow => exact absurd hcode (by rw [hf]; decide)
    obtain ⟨fromInput, factor, addend, negated, register⟩ := m
    simp only at hinput haddend hnegated hregister hfactor
    rw [hinput, haddend, hnegated, hregister, hfactor]
    rfl
  · rintro rfl
    have hword : ((0 : Word).set .tra 0).set .ysel 0 = 0 := by decide
    show Step.mk (((0 : Word).set .tra 0).set .ysel 0) 0 = .nop
    rw [hword]
    rfl

/-- A multiplication neither reads memory nor commits, so all of it is work. -/
theorem work_step : (m.step input).work = m.step input := by
  have hplain := m.plain_step input
  have hword : (m.step input).word.work = (m.step input).word := by
    apply eq_of_get_eq
    · intro f
      rw [Word.work, get_clear, get_clear]
      split
      · next hc => exact (hplain.get f (List.mem_append_right _ hc)).symm
      · split
        · next hr => exact (hplain.get f (List.mem_cons_of_mem _ (List.mem_append_left _ hr))).symm
        · rfl
    · rw [Word.work, clear_all_clear, clear_all_clear, hplain.clear_all]
  exact Step.ext hword rfl

end Mac

namespace Instruction

/-- Whether an instruction is encoded as steps. -/
def hasSteps : Instruction → Bool
  | madrs _ | select _ | mode _ => false
  | _ => true

/-- Only one instruction that has steps has nothing but empty ones. -/
theorem idle_block_iff {i : Instruction} (hi : i.hasSteps = true) (input : Input) (mode : ShiftMode) :
    (∀ s ∈ i.block input mode, s = .nop) ↔ i = .mac .null := by
  -- all instructions but a multiplication have a field that is set whatever the operands are
  have hbusy : ∀ {w : Word} {f : Field}, w.has f = true → .ofWord w ∈ i.block input mode →
      i ≠ .mac .null → ((∀ s ∈ i.block input mode, s = .nop) ↔ i = .mac .null) := by
    intro w f hw hmem hne
    exact iff_of_false (fun h => Step.ofWord_ne_nop hw (h _ hmem)) hne
  cases i with
  | madrs line => exact Bool.noConfusion hi
  | select input => exact Bool.noConfusion hi
  | mode m => exact Bool.noConfusion hi
  | output o =>
    refine hbusy (o.has_ysel_word input mode) ?_ (by simp)
    simp only [block]
    split <;> exact List.mem_cons_self
  | mac m =>
    rw [block, List.forall_mem_singleton, Mac.step_eq_nop_iff, mac.injEq]
  | storeTemp r =>
    have hysel : (((keepAccumulator.set .twt 1).set .twa r).set .shift mode.code).has .ysel = true := by
      rw [has_set_of_ne _ (by decide), has_set_of_ne _ (by decide), has_set_of_ne _ (by decide)]
      exact has_ysel_keepAccumulator
    exact hbusy hysel List.mem_cons_self (by simp)
  | store a => exact hbusy (a.has_mwt_writeWord mode) List.mem_cons_self (by simp)
  | load a r => exact hbusy a.has_mrd_readWord List.mem_cons_self (by simp)

end Instruction

/-! ## Lines -/

namespace Generator

/-- A multiplication is a single step. -/
theorem steps_execute_mac (g : Generator) (m : Mac) :
    (g.execute (.mac m)).steps = g.steps ++ [m.step g.input] := by
  have hfiller : g.filler (.mac m) = [] := rfl
  rw [steps_execute, hfiller, List.append_nil]
  rfl

/-- A line with an instruction that has steps adds only empty ones iff it is the null multiplication. -/
theorem idle_added_iff {i : Instruction} (hi : i.hasSteps = true) (g : Generator) :
    (∀ s ∈ g.filler i ++ i.block g.input g.mode, s = .nop) ↔ i = .mac .null := by
  rw [← Instruction.idle_block_iff hi g.input g.mode]
  constructor
  · intro h s hs
    exact h s (List.mem_append_right _ hs)
  · intro h s hs
    rcases List.mem_append.1 hs with hs | hs
    · exact eq_nop_of_mem_filler hs
    · exact h s hs

/-- A line only adds steps. -/
theorem steps_isPrefix_line (g : Generator) (n : Int) (text : Text) : g.steps <+: (g.line n text).steps := by
  rcases g.steps_line n text with hs | ⟨i, -, hi⟩
  · exact ⟨[], by rw [List.append_nil, hs]⟩
  · rw [hi, steps_execute, List.append_assoc]
    exact List.prefix_append _ _

/-- Completing a program keeps the steps it has. -/
theorem steps_isPrefix_finish (g : Generator) : g.steps <+: g.finish.steps := by
  unfold finish
  split
  · exact List.prefix_rfl
  · exact List.prefix_append _ _

/-- The steps after a line are the first steps of the whole program. -/
theorem steps_line_isPrefix_ofLines (before : List Text) (text : Text) (after : List Text) :
    ((taken before).line (1 + before.length : Nat) text).steps <+:
      (ofLines (before ++ text :: after)).steps := by
  have htaken : taken (before ++ text :: after) =
      (taken before).takeLines (1 + before.length) (text :: after) :=
    takeLines_append initial 1 before (text :: after)
  rw [ofLines_eq_finish, htaken, takeLines]
  refine List.IsPrefix.trans ?_ (steps_isPrefix_finish _)
  apply @takeLines_induction fun g =>
    ((taken before).line (1 + before.length : Nat) text).steps <+: g.steps
  · intro g n text h
    exact h.trans (g.steps_isPrefix_line n text)
  · exact List.prefix_rfl

end Generator

/-! ## Compiled programs -/

/-- A multiplication that is not null is in the work of the emitted program, after the work of the lines
before it. -/
theorem working_emitted_mac {source : Text} {before : List Text} {text : Text} {after : List Text} {m : Mac}
    (hlines : (preprocess source).lines = before ++ text :: after)
    (hline : Instruction.ofLine text = .ok (some (.mac m))) (hne : m ≠ .null) :
    ∃ rest, (emitted source).working =
      (Generator.taken before).steps.working ++ m.step (Generator.taken before).input :: rest := by
  obtain ⟨later, hlater⟩ := Generator.steps_line_isPrefix_ofLines before text after
  rw [Generator.line_eq_execute hline, Generator.steps_execute_mac] at hlater
  -- a multiplication that is not empty is work, and no pass loses work
  have hstep : (m.step (Generator.taken before).input).work ≠ .nop := by
    rw [Mac.work_step, Ne, Mac.step_eq_nop_iff]
    exact hne
  refine ⟨Program.working later, ?_⟩
  calc (emitted source).working
      = (generated source).working := Program.working_optimize _
    _ = ((Generator.taken before).steps ++ [m.step (Generator.taken before).input] ++ later).working := by
      rw [generated, hlines, ← hlater]
    _ = (Generator.taken before).steps.working ++
        m.step (Generator.taken before).input :: Program.working later := by
      rw [Program.working_append, Program.working_append, Program.working_singleton hstep, Mac.work_step,
        List.append_assoc, List.singleton_append]

/-- **The one instruction that is taken for empty.** A line with an instruction that has steps adds some
step that is not empty, whatever was before it, unless the instruction is `Mac.null`; a multiplication
adds a single step. In every compiled program that has the line, the step of any other multiplication is
still there with all of its fields, and before it is the work of the lines before. -/
theorem kept_unless_null {text : Text} {i : Instruction} (hline : Instruction.ofLine text = .ok (some i))
    (hi : i.hasSteps = true) :
    (∀ (g : Generator) (n : Int), (g.line n text).errors = g.errors ∧
      ∃ added : Program, (g.line n text).steps = g.steps ++ added ∧
        ((∀ s ∈ added, s = .nop) ↔ i = .mac .null) ∧ ∀ m, i = .mac m → added = [m.step g.input]) ∧
    ∀ m, i = .mac m → m ≠ .null →
      ∀ (source : Text) (c : Compiled) (before after : List Text), compile source = .ok c →
        (preprocess source).lines = before ++ text :: after →
        c = listed source ∧
        ∃ (earlier : Program) (s : Step) (later : Program), emitted source = earlier ++ s :: later ∧
          s.work = m.step (Generator.taken before).input ∧
          earlier.working = (Generator.taken before).steps.working := by
  constructor
  · intro g n
    rw [Generator.line_eq_execute hline]
    refine ⟨Generator.errors_execute g i, g.filler i ++ i.block g.input g.mode, ?_,
      Generator.idle_added_iff hi g, ?_⟩
    · rw [Generator.steps_execute, List.append_assoc]
    · rintro m rfl
      rfl
  · rintro m rfl hne source c before after hc hlines
    refine ⟨(compile_eq_ok_iff.1 hc).2.2.2, ?_⟩
    obtain ⟨rest, hwork⟩ := working_emitted_mac hlines hline hne
    exact Program.exists_eq_append_of_working hwork

/-- A multiplication after an address that is loaded late is moved onto the empty step and kept. -/
theorem kept_unless_null_moved :
    compile (ascii "OUTPUT adrs/s\nMAC input, shifted") =
      .ok ⟨ascii "MPRO[0] = YSEL ADRL SHIFT:3 BSEL\nMPRO[1] = XSEL ZERO\n", 2⟩ ∧
    ∃ (earlier : Program) (s : Step) (later : Program),
      emitted (ascii "OUTPUT adrs/s\nMAC input, shifted") = earlier ++ s :: later ∧
      s.work =
        Mac.step (Generator.taken [ascii "OUTPUT adrs/s"]).input ⟨true, .shifted, .zero, false, 0⟩ ∧
      earlier.working = (Generator.taken [ascii "OUTPUT adrs/s"]).steps.working := by
  have hline : Instruction.ofLine (ascii "MAC input, shifted") =
      .ok (some (.mac ⟨true, .shifted, .zero, false, 0⟩)) := by
    apply eq_ok_of_toOption
    decide +kernel
  have hlines : (preprocess (ascii "OUTPUT adrs/s\nMAC input, shifted")).lines =
      [ascii "OUTPUT adrs/s"] ++ ascii "MAC input, shifted" :: [] := by decide +kernel
  refine ⟨?compiled, ((kept_unless_null hline rfl).2 _ rfl (by decide) _ _ _ _ ?compiled hlines).2⟩
  case compiled =>
    apply eq_ok_of_toOption
    decide +kernel

/-- The null multiplication is an accepted line, but a program of it alone is compiled to nothing. -/
theorem compile_null_mac :
    Instruction.ofLine (ascii "MAC [temp:0], shifted, [temp:0]") = .ok (some (.mac .null)) ∧
    generated (ascii "MAC [temp:0], shifted, [temp:0]\n") = [.nop, .nop] ∧
    compile (ascii "MAC [temp:0], shifted, [temp:0]\n") = .ok ⟨[], 0⟩ := by
  refine ⟨?_, ?_, ?_⟩
  · apply eq_ok_of_toOption
    decide +kernel
  · decide +kernel
  · apply eq_ok_of_toOption
    decide +kernel

end Microcode
