import Microcode.Generator
import Microcode.Proofs.Program.Hoisting

/-!
# Generated programs keep the discipline

A generated program is made of the blocks of its instructions and of empty steps.
`Generator.steps_ofLines_induction` is the induction over such programs.

Every instruction is encoded as a block that starts and ends without a read in flight, and that accesses
memory at odd steps if it starts where it has to. Blocks are then put one after another, so the whole
program keeps the discipline (`Program.Generated`, `Generator.generated_ofLines`). Before any hoisting,
moreover, a step of a load does nothing else.
-/

namespace Microcode

open Word

/-! ## Words of instructions -/

namespace Word

/-- A flag leaves the other fields alone. -/
theorem get_flag_of_ne (w : Word) {f g : Field} (h : g ≠ f) (on : Bool) :
    (w.flag f on).get g = w.get g := by
  unfold flag
  split
  · exact get_set_of_ne w h 1
  · rfl

/-- A flag sets no bit beside the fields. -/
theorem clear_all_flag (w : Word) (f : Field) (on : Bool) :
    (w.flag f on).clear Field.all = w.clear Field.all := by
  unfold flag
  split
  · exact clear_all_set w f 1
  · rfl

/-- The fields of memory accesses and commits. -/
def memoryFields : List Field := .mwt :: readFields ++ commitFields

/-- A word that has nothing to do with memory. -/
structure Plain (w : Word) : Prop where
  get : ∀ f ∈ memoryFields, w.get f = 0
  clear_all : w.clear Field.all = 0

namespace Plain

variable {w : Word}

theorem zero : (0 : Word).Plain :=
  ⟨fun f _ => get_zero f, clear_zero _⟩

/-- Writing a field that has nothing to do with memory keeps a word plain. -/
theorem set (h : w.Plain) {f : Field} (hf : f ∉ memoryFields) (v : Nat) : (w.set f v).Plain where
  get g hg := by
    have hne : g ≠ f := fun hc => hf (hc ▸ hg)
    rw [get_set_of_ne w hne, h.get g hg]
  clear_all := by rw [clear_all_set, h.clear_all]

theorem flag (h : w.Plain) {f : Field} (hf : f ∉ memoryFields) (on : Bool) : (w.flag f on).Plain where
  get g hg := by
    have hne : g ≠ f := fun hc => hf (hc ▸ hg)
    rw [get_flag_of_ne w hne, h.get g hg]
  clear_all := by rw [clear_all_flag, h.clear_all]

/-- A plain word has none of the fields of memory. -/
theorem has (h : w.Plain) {f : Field} (hf : f ∈ memoryFields) : w.has f = false :=
  has_eq_false_iff.2 (h.get f hf)

/-- A plain word does not access memory. -/
theorem accessesMemory (h : w.Plain) : w.accessesMemory = false := by
  unfold Word.accessesMemory
  rw [h.has (by decide), h.has (by decide)]
  rfl

/-- A plain word is orderly, for it has no fields that could be out of place. -/
theorem orderly (h : w.Plain) : w.Orderly where
  exclusive hc := by
    rw [h.has (by decide)] at hc
    exact Bool.noConfusion hc.1
  address _ f hf := h.get f (List.mem_cons_of_mem _ (List.mem_append_left _ (List.mem_cons_of_mem _ hf)))
  register _ := h.get .iwa (by decide)
  clear_all := h.clear_all

end Plain

/-- A word whose fields all belong to reads and commits does no work. -/
theorem work_eq_zero {w : Word} (h : ∀ f, f ∉ readFields → f ∉ commitFields → w.get f = 0)
    (hall : w.clear Field.all = 0) : w.work = 0 := by
  apply eq_of_get_eq
  · intro f
    rw [work, get_clear, get_clear, get_zero]
    split
    · rfl
    · next hc =>
      split
      · rfl
      · next hr => exact h f hr hc
  · rw [work, clear_all_clear, clear_all_clear, hall, clear_zero]

end Word

theorem plain_keepAccumulator : keepAccumulator.Plain :=
  (Plain.zero.set (by decide) 1).set (by decide) 1

/-- An output has nothing to do with memory. -/
theorem Output.plain_word (input : Input) (mode : ShiftMode) (o : Output (Fin mixerCount)) :
    (o.word input mode).Plain := by
  cases o with
  | yreg => exact (plain_keepAccumulator.set (by decide) _).set (by decide) _
  | adrs => exact ((plain_keepAccumulator.set (by decide) _).set (by decide) _).set (by decide) _
  | adrsShifted => exact (plain_keepAccumulator.set (by decide) _).set (by decide) _
  | mixer i => exact ((plain_keepAccumulator.set (by decide) _).set (by decide) _).set (by decide) _

/-- Below the flags of a multiplication are its two operands. -/
theorem Mac.get_step_of_ne {input : Input} {m : Mac} {f : Field} (hn : f ≠ .negb) (hb : f ≠ .bsel)
    (hz : f ≠ .zero) :
    (m.step input).word.get f =
      (((if m.fromInput then ((0 : Word).set .xsel 1).set .ira input else 0).set .tra m.register).set
        .ysel m.factor.code).get f := by
  show ((((_ : Word).flag .zero _).flag .bsel _).flag .negb _).get f = _
  rw [get_flag_of_ne _ hn, get_flag_of_ne _ hb, get_flag_of_ne _ hz]

/-- The factor of a multiplication is told by its code. -/
theorem Mac.get_ysel_step {input : Input} {m : Mac} : (m.step input).word.get .ysel = m.factor.code := by
  rw [get_step_of_ne (by decide) (by decide) (by decide), get_set_self]
  cases m.factor <;> rfl

/-- The fields that a multiplication may have. -/
def Mac.fields : List Field := [.tra, .xsel, .ysel, .ira, .negb, .zero, .bsel]

/-- A multiplication has no other fields than its own. -/
theorem Mac.get_step_of_not_mem {input : Input} {m : Mac} {f : Field} (h : f ∉ Mac.fields) :
    (m.step input).word.get f = 0 := by
  simp only [Mac.fields, List.mem_cons, List.not_mem_nil, not_or, or_false] at h
  obtain ⟨htra, hxsel, hysel, hira, hnegb, hzero, hbsel⟩ := h
  rw [get_step_of_ne hnegb hbsel hzero, get_set_of_ne _ hysel, get_set_of_ne _ htra]
  split
  · rw [get_set_of_ne _ hira, get_set_of_ne _ hxsel, get_zero]
  · exact get_zero f

/-- A multiplication has nothing to do with memory. -/
theorem Mac.plain_step (input : Input) (m : Mac) : (m.step input).word.Plain := by
  have hx : (if m.fromInput then ((0 : Word).set .xsel 1).set .ira input else 0).Plain := by
    split
    · exact (Plain.zero.set (by decide) _).set (by decide) _
    · exact Plain.zero
  exact ((((hx.set (by decide) _).set (by decide) _).flag (by decide) _).flag (by decide) _).flag
    (by decide) _

namespace Access

/-- An access sets the fields of its address only. -/
theorem get_word_of_not_mem (a : Access) {f : Field} (h : f ∉ addressFields) : a.word.get f = 0 := by
  simp only [addressFields, List.mem_cons, List.not_mem_nil, not_or, or_false] at h
  obtain ⟨htable, hnxadr, hadreb, hmasa, hnofl⟩ := h
  unfold word
  rw [get_flag_of_ne _ hnofl, get_flag_of_ne _ hadreb, get_flag_of_ne _ hnxadr, get_flag_of_ne _ htable,
    get_set_of_ne _ hmasa, get_zero]

theorem clear_all_word (a : Access) : a.word.clear Field.all = 0 := by
  unfold word
  rw [clear_all_flag, clear_all_flag, clear_all_flag, clear_all_flag, clear_all_set, clear_zero]

/-! ### Stores and loads -/

/-- A store to memory sets its address, the write and the shift. -/
theorem get_writeWord_of_not_mem (a : Access) (mode : ShiftMode) {f : Field} (h : f ∉ addressFields)
    (hw : f ≠ .mwt) (hs : f ≠ .shift) : ((a.word.set .mwt 1).set .shift mode.code).get f = 0 := by
  rw [get_set_of_ne _ hs, get_set_of_ne _ hw, a.get_word_of_not_mem h]

theorem has_mwt_writeWord (a : Access) (mode : ShiftMode) :
    ((a.word.set .mwt 1).set .shift mode.code).has .mwt = true := by
  rw [has_set_of_ne _ (by decide), has_set_one]

/-- A store to memory is orderly: it writes and does not read. -/
theorem orderly_writeWord (a : Access) (mode : ShiftMode) :
    ((a.word.set .mwt 1).set .shift mode.code).Orderly where
  exclusive h := has_iff.1 h.1 (a.get_writeWord_of_not_mem mode (by decide) (by decide) (by decide))
  address h := by
    rw [accessesMemory, a.has_mwt_writeWord, Bool.or_true] at h
    exact Bool.noConfusion h
  register _ := a.get_writeWord_of_not_mem mode (by decide) (by decide) (by decide)
  clear_all := by rw [clear_all_set, clear_all_set, a.clear_all_word]

/-- The read of a load sets its address and the read. -/
theorem get_readWord_of_not_mem (a : Access) {f : Field} (h : f ∉ readFields) :
    (a.word.set .mrd 1).get f = 0 := by
  have hr : f ≠ .mrd := fun hc => h (hc ▸ List.mem_cons_self)
  rw [get_set_of_ne _ hr, a.get_word_of_not_mem fun hc => h (List.mem_cons_of_mem _ hc)]

theorem has_mrd_readWord (a : Access) : (a.word.set .mrd 1).has .mrd = true :=
  has_set_one _ _

theorem clear_all_readWord (a : Access) : (a.word.set .mrd 1).clear Field.all = 0 := by
  rw [clear_all_set, a.clear_all_word]

/-- The read of a load is orderly: it reads and does not write. -/
theorem orderly_readWord (a : Access) : (a.word.set .mrd 1).Orderly where
  exclusive h := has_iff.1 h.2 (a.get_readWord_of_not_mem (by decide))
  address h := by
    rw [accessesMemory, a.has_mrd_readWord] at h
    exact Bool.noConfusion h
  register _ := a.get_readWord_of_not_mem (by decide)
  clear_all := a.clear_all_readWord

/-- There is nothing in a read that could be moved to another step. -/
theorem work_readWord (a : Access) : (a.word.set .mrd 1).work = 0 :=
  work_eq_zero (fun _ hr _ => a.get_readWord_of_not_mem hr) a.clear_all_readWord

end Access

/-- The commit of a load sets the register and the commit. -/
theorem get_commitWord_of_not_mem (r : Fin memsCount) {f : Field} (h : f ∉ commitFields) :
    (((0 : Word).set .iwt 1).set .iwa r).get f = 0 := by
  simp only [commitFields, List.mem_cons, List.not_mem_nil, not_or, or_false] at h
  rw [get_set_of_ne _ h.2, get_set_of_ne _ h.1, get_zero]

theorem has_iwt_commitWord (r : Fin memsCount) : (((0 : Word).set .iwt 1).set .iwa r).has .iwt = true := by
  rw [has_set_of_ne _ (by decide), has_set_one]

theorem clear_all_commitWord (r : Fin memsCount) :
    (((0 : Word).set .iwt 1).set .iwa r).clear Field.all = 0 := by
  rw [clear_all_set, clear_all_set, clear_zero]

/-- The commit of a load is orderly. -/
theorem orderly_commitWord (r : Fin memsCount) : (((0 : Word).set .iwt 1).set .iwa r).Orderly where
  exclusive h := has_iff.1 h.1 (get_commitWord_of_not_mem r (by decide))
  address _ f hf := by
    apply get_commitWord_of_not_mem r
    revert f
    decide
  register h := by
    rw [has_iwt_commitWord] at h
    exact Bool.noConfusion h
  clear_all := clear_all_commitWord r

/-- There is nothing in a commit that could be moved to another step. -/
theorem work_commitWord (r : Fin memsCount) : (((0 : Word).set .iwt 1).set .iwa r).work = 0 :=
  work_eq_zero (fun _ _ hc => get_commitWord_of_not_mem r hc) (clear_all_commitWord r)

/-! ## Blocks -/

/-- A step of a load that does nothing else, or a step that is none. -/
def Step.Bare (s : Step) : Prop :=
  s.word.has .mrd = true ∨ s.word.has .iwt = true → s.word.work = 0

/-- What holds of every step that the generator makes. -/
structure Step.Generated (s : Step) : Prop where
  orderly : s.word.Orderly
  bare : s.Bare

/-- A step with a plain word can be generated. -/
theorem Step.Generated.of_plain {s : Step} (h : s.word.Plain) : s.Generated where
  orderly := h.orderly
  bare hs := by
    rw [h.has (by decide), h.has (by decide)] at hs
    rcases hs with hs | hs <;> exact Bool.noConfusion hs

theorem Step.generated_nop : Step.nop.Generated :=
  Step.Generated.of_plain Plain.zero

/-- Plain steps may stand anywhere. -/
theorem Program.Timed.of_plain {p : Program} (h : ∀ s ∈ p, s.word.Plain) (odd : Bool) :
    Timed odd false false p := by
  induction p generalizing odd with
  | nil => exact ⟨rfl, rfl⟩
  | cons s p ih =>
    have hs : s.word.Plain := h s List.mem_cons_self
    refine .cons ?_ (hs.has (by decide)) (hs.has (by decide)) (ih (fun t ht => h t (.tail s ht)) (!odd))
    rw [hs.accessesMemory]
    exact fun hc => Bool.noConfusion hc

namespace Instruction

/-- An instruction that may start anywhere has nothing to do with memory. -/
theorem plain_block {i : Instruction} (hi : i.needsOdd = false) (input : Input) (mode : ShiftMode) :
    ∀ s ∈ i.block input mode, s.word.Plain := by
  intro s hs
  cases i with
  | madrs line => exact absurd hs List.not_mem_nil
  | select input => exact absurd hs List.not_mem_nil
  | mode m => exact absurd hs List.not_mem_nil
  | output o =>
    simp only [block] at hs
    split at hs
    · rcases List.mem_cons.1 hs with rfl | hs
      · exact o.plain_word input mode
      · rw [List.mem_singleton.1 hs]
        exact Plain.zero
    · rw [List.mem_singleton.1 hs]
      exact o.plain_word input mode
  | mac m =>
    rw [List.mem_singleton.1 hs]
    exact m.plain_step input
  | storeTemp r =>
    rw [List.mem_singleton.1 hs]
    exact ((plain_keepAccumulator.set (by decide) _).set (by decide) _).set (by decide) _
  | store a => exact Bool.noConfusion hi
  | load a r => exact Bool.noConfusion hi

/-- The instructions that have to start at an odd index. -/
theorem eq_of_needsOdd {i : Instruction} (hi : i.needsOdd = true) :
    (∃ a, i = .store a) ∨ ∃ a r, i = .load a r := by
  cases i with
  | store a => exact .inl ⟨a, rfl⟩
  | load a r => exact .inr ⟨a, r, rfl⟩
  | _ => exact Bool.noConfusion hi

/-- What the words of a block are like. -/
theorem generated_block (i : Instruction) (input : Input) (mode : ShiftMode) :
    ∀ s ∈ i.block input mode, s.Generated := by
  intro s hs
  cases hi : i.needsOdd with
  | false => exact Step.Generated.of_plain (plain_block hi input mode s hs)
  | true =>
    rcases eq_of_needsOdd hi with ⟨a, rfl⟩ | ⟨a, r, rfl⟩
    · rw [List.mem_singleton.1 hs]
      refine ⟨a.orderly_writeWord mode, ?_⟩
      -- a store neither reads nor commits
      rintro (h | h)
      · exact absurd (a.get_writeWord_of_not_mem mode (by decide) (by decide) (by decide)) (has_iff.1 h)
      · exact absurd (a.get_writeWord_of_not_mem mode (by decide) (by decide) (by decide)) (has_iff.1 h)
    · rcases List.mem_cons.1 hs with rfl | hs
      · exact ⟨a.orderly_readWord, fun _ => a.work_readWord⟩
      · rcases List.mem_cons.1 hs with rfl | hs
        · exact Step.generated_nop
        · rw [List.mem_singleton.1 hs]
          exact ⟨orderly_commitWord r, fun _ => work_commitWord r⟩

/-- A block that starts at an odd index if it has to leaves no read in flight. -/
theorem timed_block (i : Instruction) (input : Input) (mode : ShiftMode) {odd : Bool}
    (h : i.needsOdd = true → odd = true) : Program.Timed odd false false (i.block input mode) := by
  cases hi : i.needsOdd with
  | false => exact .of_plain (plain_block hi input mode) odd
  | true =>
    obtain rfl : odd = true := h hi
    rcases eq_of_needsOdd hi with ⟨a, rfl⟩ | ⟨a, r, rfl⟩
    · have hempty : ∀ f, f ∉ addressFields → f ≠ .mwt → f ≠ .shift →
          ((a.word.set .mwt 1).set .shift mode.code).has f = false :=
        fun f hf hw hs => has_eq_false_iff.2 (a.get_writeWord_of_not_mem mode hf hw hs)
      exact .cons (fun _ => rfl) (hempty .iwt (by decide) (by decide) (by decide))
        (hempty .mrd (by decide) (by decide) (by decide)) ⟨rfl, rfl⟩
    · have hread : (a.word.set .mrd 1).has .iwt = false :=
        has_eq_false_iff.2 (a.get_readWord_of_not_mem (by decide))
      have hcommit : (((0 : Word).set .iwt 1).set .iwa r).has .mrd = false :=
        has_eq_false_iff.2 (get_commitWord_of_not_mem r (by decide))
      -- the read is in flight over the step in between, and due at the commit
      refine .cons (fun _ => rfl) hread a.has_mrd_readWord (.cons ?_ (has_zero _) (has_zero _) ?_)
      · simp [Step.nop, accessesMemory]
      · exact .cons (fun _ => rfl) (has_iwt_commitWord r) hcommit ⟨rfl, rfl⟩

end Instruction

/-! ## Programs -/

namespace Program

/-- The parity of the index after a program that starts at a given parity. -/
def parityAfter (odd : Bool) (p : Program) : Bool :=
  odd ^^ (p.length % 2 == 1)

/-- Each step turns the parity round. -/
theorem parityAfter_cons (odd : Bool) (s : Step) (p : Program) :
    parityAfter odd (s :: p) = parityAfter (!odd) p := by
  unfold parityAfter
  rw [List.length_cons]
  rcases Nat.mod_two_eq_zero_or_one p.length with h | h
  · rw [show (p.length + 1) % 2 = 1 by omega, h]
    cases odd <;> rfl
  · rw [show (p.length + 1) % 2 = 0 by omega, h]
    cases odd <;> rfl

/-- Programs without a read in flight between them can be put together. -/
theorem Timed.append {odd second first : Bool} {p q : Program} (hp : Timed odd second first p)
    (hq : Timed (parityAfter odd p) false false q) : Timed odd second first (p ++ q) := by
  induction p generalizing odd second first with
  | nil =>
    obtain ⟨rfl, rfl⟩ := hp
    cases odd <;> exact hq
  | cons s p ih =>
    obtain ⟨hs, hi, hp⟩ := hp
    rw [parityAfter_cons] at hq
    exact ⟨hs, hi, ih hp hq⟩

/-- What holds of every program that the generator makes. -/
structure Generated (p : Program) : Prop where
  steps : ∀ s ∈ p, s.Generated
  timed : Timed false false false p

theorem Generated.nil : Generated [] :=
  ⟨fun _ hs => absurd hs List.not_mem_nil, rfl, rfl⟩

/-- What is generated is disciplined. -/
theorem Generated.disciplined {p : Program} (h : p.Generated) : p.Disciplined where
  orderly s hs := (h.steps s hs).orderly
  timed := h.timed

/-- The steps of a load are bare, since the commit of a read is two steps later. -/
theorem Generated.bareFrom {p : Program} (h : p.Generated) (n : Nat) : p.BareFrom n := by
  have hbare : ∀ k, (p.wordAt k).has .mrd = true ∨ (p.wordAt k).has .iwt = true →
      (p.wordAt k).work = 0 := by
    have h0 : (0 : Word).has .mrd = true ∨ (0 : Word).has .iwt = true → (0 : Word).work = 0 :=
      fun _ => work_zero
    exact (@forall_wordAt (fun w => w.has .mrd = true ∨ w.has .iwt = true → w.work = 0) h0 p).2
      fun s hs => (h.steps s hs).bare
  intro k _ hmrd
  have hiwt : (p.wordAt (k + 2)).has .iwt = true := by
    rw [(timed_iff.1 h.timed).2.2.2 k, hmrd]
  exact ⟨hbare k (.inl hmrd), hbare (k + 2) (.inr hiwt)⟩

/-- A generated program can go on with generated steps that are in time at its parity. -/
theorem Generated.append {p q : Program} (hp : p.Generated) (hq : ∀ s ∈ q, s.Generated)
    (ht : Timed (parityAfter false p) false false q) : (p ++ q).Generated where
  steps s hs := (List.mem_append.1 hs).elim (hp.steps s) (hq s)
  timed := hp.timed.append ht

/-- A block may be added where it has to start. -/
theorem Generated.append_block {p : Program} (hp : p.Generated) (i : Instruction) (input : Input)
    (mode : ShiftMode) (hodd : i.needsOdd = true → p.length % 2 = 1) :
    (p ++ i.block input mode).Generated := by
  apply hp.append (i.generated_block input mode) (i.timed_block input mode ?_)
  intro hi
  rw [parityAfter, hodd hi]
  rfl

/-- An empty step may be added anywhere. -/
theorem Generated.append_nop {p : Program} (hp : p.Generated) : (p ++ [Step.nop]).Generated := by
  refine hp.append ?_ ?_
  · intro s hs
    rw [List.mem_singleton.1 hs]
    exact Step.generated_nop
  · exact .cons (by simp [Step.nop, accessesMemory]) (has_zero _) (has_zero _) ⟨rfl, rfl⟩

end Program

/-! ## The generator -/

namespace Generator

/-- Executing an instruction appends its steps, after a filler where one is needed. -/
theorem steps_execute (g : Generator) (i : Instruction) :
    (g.execute i).steps = g.steps ++ g.filler i ++ i.block g.input g.mode := by
  cases i <;> simp [execute, emit, filler, Instruction.block, Instruction.needsOdd]

/-- The filler is at most one empty step. -/
theorem filler_cases (g : Generator) (i : Instruction) : g.filler i = [] ∨ g.filler i = [.nop] := by
  unfold filler
  split
  · exact .inr rfl
  · exact .inl rfl

/-- A filler has empty steps only. -/
theorem eq_nop_of_mem_filler {g : Generator} {i : Instruction} {s : Step} (hs : s ∈ g.filler i) :
    s = .nop := by
  rcases g.filler_cases i with hf | hf
  · rw [hf] at hs
    exact absurd hs List.not_mem_nil
  · rw [hf] at hs
    exact List.mem_singleton.1 hs

/-- The filler puts a block where it has to start. -/
theorem length_filler_odd (g : Generator) {i : Instruction} (h : i.needsOdd = true) :
    (g.steps ++ g.filler i).length % 2 = 1 := by
  unfold filler
  rw [h, Bool.true_and]
  split
  · next hlen =>
    rw [beq_iff_eq] at hlen
    rw [List.length_append, List.length_singleton]
    omega
  · next hlen =>
    rw [beq_iff_eq] at hlen
    rw [List.append_nil]
    omega

/-- A line that is an instruction is executed. -/
theorem line_eq_execute {text : Text} {i : Instruction} (h : Instruction.ofLine text = .ok (some i))
    (g : Generator) (n : Int) : g.line n text = g.execute i := by
  unfold line lineWith
  rw [show Instruction.ofLineWith DirectiveKind.all text = .ok (some i) from h]

/-- A line executes an instruction or leaves the steps alone. -/
theorem steps_line (g : Generator) (n : Int) (text : Text) :
    (g.line n text).steps = g.steps ∨
      ∃ i, Instruction.ofLine text = .ok (some i) ∧ g.line n text = g.execute i := by
  unfold line lineWith
  split
  · exact .inl rfl
  · exact .inl rfl
  · next i hi => exact .inr ⟨i, hi, rfl⟩

/-! ## Lines one after another -/

/-- Takes lines one after another, the first of which has the number `n`. -/
def takeLines (g : Generator) (n : Nat) : List Text → Generator
  | [] => g
  | text :: lines => (g.line n text).takeLines (n + 1) lines

/-- The generator after the first lines of a source. -/
def taken (lines : List Text) : Generator :=
  initial.takeLines 1 lines

/-- Taking lines in two parts goes on with the number of the next line. -/
theorem takeLines_append (g : Generator) (n : Nat) (before after : List Text) :
    g.takeLines n (before ++ after) = (g.takeLines n before).takeLines (n + before.length) after := by
  induction before generalizing g n with
  | nil => rfl
  | cons text before ih =>
    rw [List.cons_append, takeLines, ih, List.length_cons, Nat.add_right_comm n 1, ← Nat.add_assoc]
    rfl

/-- The generator of a source has taken all lines and is completed then. -/
theorem ofLines_eq_finish (lines : List Text) : ofLines lines = (taken lines).finish := by
  have hfold : ∀ (lines : List Text) (g : Generator) (n : Nat),
      (lines.zipIdx n).foldl (fun g l => g.line l.2 l.1) g = g.takeLines n lines := by
    intro lines
    induction lines with
    | nil =>
      intro g n
      rfl
    | cons text lines ih =>
      intro g n
      exact ih (g.line n text) (n + 1)
  exact congrArg finish (hfold lines initial 1)

/-- What a run of lines keeps, from what a line keeps. -/
theorem takeLines_induction {P : Generator → Prop} (hline : ∀ g n text, P g → P (g.line n text))
    {g : Generator} (h : P g) (n : Nat) (lines : List Text) : P (g.takeLines n lines) := by
  induction lines generalizing g n with
  | nil => exact h
  | cons text lines ih => exact ih (hline g n text h) (n + 1)

section Induction

variable {P : Program → Prop} (hnop : ∀ p, P p → P (p ++ [Step.nop]))
  (hblock : ∀ (p : Program) (i : Instruction) (input : Input) (mode : ShiftMode),
    (i.needsOdd = true → p.length % 2 = 1) → P p → P (p ++ i.block input mode))

include hnop hblock

/-- What empty steps and blocks at the right parity keep, a line keeps. -/
theorem steps_line_induction (g : Generator) (n : Int) (text : Text) (h : P g.steps) :
    P (g.line n text).steps := by
  rcases g.steps_line n text with hs | ⟨i, -, hi⟩
  · rwa [hs]
  · have hfill : P (g.steps ++ g.filler i) := by
      rcases g.filler_cases i with hf | hf
      · rwa [hf, List.append_nil]
      · rw [hf]
        exact hnop _ h
    rw [hi, steps_execute]
    exact hblock _ i g.input g.mode g.length_filler_odd hfill

/-- What the empty program has, and empty steps and blocks at the right parity keep, holds of every
generated program. -/
theorem steps_ofLines_induction (h0 : P []) (lines : List Text) : P (ofLines lines).steps := by
  have htaken : P (taken lines).steps := by
    apply @takeLines_induction fun g => P g.steps
    · intro g n text h
      exact steps_line_induction hnop hblock g n text h
    · exact h0
  rw [ofLines_eq_finish]
  unfold finish
  split
  · exact htaken
  · exact hnop _ htaken

end Induction

/-- Every source leads to a generated program. -/
theorem generated_ofLines (lines : List Text) : (ofLines lines).steps.Generated := by
  refine steps_ofLines_induction (fun p hp => hp.append_nop) ?_ Program.Generated.nil lines
  intro p i input mode hodd hp
  exact hp.append_block i input mode hodd

end Generator

end Microcode
