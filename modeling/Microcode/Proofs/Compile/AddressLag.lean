import Microcode.Proofs.Compile.Schedule
import Microcode.Proofs.Program.Deletion

/-!
# The lag of the address register

An address that is loaded from the accumulator arrives a step late, so the step after the load must not
use it. A program that keeps to this is `Waiting`.

* The generator leaves that step empty, and its programs are waiting (`Generator.waiting_ofLines`).
* The passes know nothing of the lag. A read may be hoisted onto the empty step, and the empty step may
  be moved away or be dropped with another one. `waiting_compact_trickle_iff` says exactly when the use of
  the address ends up next to the load: if the last work before it is the late load and the number of
  empty steps since the last pinned step is even, for then none of them is left.
-/

namespace Microcode

open Word

/-- Whether a word accesses memory at an address that the address register is added to. -/
def Word.usesAddress (w : Word) : Bool :=
  w.accessesMemory && w.has .adreb

/-- A plain word has no memory access, so it does not use the address register. -/
theorem Word.Plain.usesAddress {w : Word} (h : w.Plain) : w.usesAddress = false := by
  rw [Word.usesAddress, h.accessesMemory]
  rfl

/-- A word that does not load the address register does not load it late. -/
theorem Word.loadsAddressLate_of_adrl {w : Word} (h : w.get .adrl = 0) : w.loadsAddressLate = false := by
  rw [loadsAddressLate, has_eq_false_iff.2 h]
  rfl

namespace Step

/-- The second step may follow the first one at once. -/
def MayPrecede (s t : Step) : Prop :=
  s.word.loadsAddressLate = true → t.word.usesAddress = false

instance : DecidableRel MayPrecede :=
  fun s t => inferInstanceAs (Decidable (s.word.loadsAddressLate = true → t.word.usesAddress = false))

theorem mayPrecede_nop (s : Step) : s.MayPrecede nop :=
  fun _ => Plain.zero.usesAddress

theorem nop_mayPrecede (t : Step) : nop.MayPrecede t := by
  intro h
  rw [show nop.word = 0 from rfl, loadsAddressLate_of_adrl (get_zero _)] at h
  exact Bool.noConfusion h

/-- A step that uses the address is pinned. -/
theorem usesAddress_of_not_isPinned {s : Step} (h : s.isPinned = false) : s.word.usesAddress = false := by
  obtain ⟨hw, hr, -⟩ := has_eq_false_of_not_isPinned h
  rw [usesAddress, accessesMemory, hw, hr]
  rfl

end Step

namespace Program

/-- No step uses the address register directly after it was loaded late. -/
def Waiting (p : Program) : Prop :=
  ∀ k, (p.wordAt k).loadsAddressLate = true → (p.wordAt (k + 1)).usesAddress = false

/-- Waiting is a property of neighbours. -/
theorem waiting_iff_isChain {p : Program} : p.Waiting ↔ p.IsChain Step.MayPrecede := by
  rw [List.isChain_iff_getElem]
  constructor
  · intro h k hk hlate
    rw [← wordAt_eq_getElem] at hlate ⊢
    exact h k hlate
  · intro h k hlate
    rcases Nat.lt_or_ge (k + 1) p.length with hk | hk
    · rw [wordAt_eq_getElem hk]
      rw [wordAt_eq_getElem (by omega)] at hlate
      exact h k hk hlate
    · rw [wordAt_of_length_le hk]
      exact Plain.zero.usesAddress

instance (p : Program) : Decidable p.Waiting :=
  decidable_of_iff _ waiting_iff_isChain.symm

/-! ## What the passes remember -/

/-- The last step of a program that does anything. -/
def lastWork (p : Program) : Step :=
  (p.reverse.find? (!·.isNop)).getD .nop

/-- The number of empty steps after the last pinned step. -/
def slack (p : Program) : Nat :=
  (p.reverse.takeWhile (!·.isPinned)).countP (·.isNop)

@[simp] theorem lastWork_append_nop (p : Program) : lastWork (p ++ [Step.nop]) = p.lastWork := by
  simp [lastWork]

/-- A step that does something becomes the last one that does. -/
theorem lastWork_append {s : Step} (hs : s.isNop = false) (p : Program) : lastWork (p ++ [s]) = s := by
  simp [lastWork, hs]

@[simp] theorem slack_append_nop (p : Program) : slack (p ++ [Step.nop]) = p.slack + 1 := by
  have hpin : Step.nop.isPinned = false := rfl
  simp [slack, hpin]

/-- Directly behind a pinned step there is no empty one. -/
theorem slack_append_pinned {s : Step} (hp : s.isPinned = true) (p : Program) : slack (p ++ [s]) = 0 := by
  simp [slack, hp]

/-- A step that is neither empty nor pinned leaves the count as it is. -/
theorem slack_append {s : Step} (hs : s.isNop = false) (hp : s.isPinned = false) (p : Program) :
    slack (p ++ [s]) = p.slack := by
  simp [slack, hs, hp]

/-! ## The lag after the passes -/

/-- The steps of a program, each with what is before it. -/
theorem forall_split_cons {P : Program → Step → Prop} {s : Step} {p : Program} :
    (∀ before t after, s :: p = before ++ t :: after → P before t) ↔
      P [] s ∧ ∀ before t after, p = before ++ t :: after → P (s :: before) t := by
  constructor
  · intro h
    refine ⟨h [] s p rfl, ?_⟩
    intro before t after hp
    exact h (s :: before) t after (by rw [hp]; rfl)
  · rintro ⟨hs, h⟩ before t after hp
    cases before with
    | nil =>
      obtain ⟨rfl, -⟩ := List.cons.inj hp
      exact hs
    | cons u before =>
      obtain ⟨rfl, hrest⟩ := List.cons.inj hp
      exact h before t after hrest

/-- A step may follow what is left of the empty steps before it. -/
theorem isChain_replicate_append {s t : Step} {p : Program} (n : Nat) :
    (s :: (List.replicate (n % 2) .nop ++ t :: p)).IsChain Step.MayPrecede ↔
      (n % 2 = 0 → s.MayPrecede t) ∧ (t :: p).IsChain Step.MayPrecede := by
  rcases Nat.mod_two_eq_zero_or_one n with hn | hn
  · rw [hn, List.replicate_zero, List.nil_append, List.isChain_cons_cons]
    exact and_congr_left' ⟨fun h _ => h, fun h => h rfl⟩
  · rw [hn, List.replicate_one, List.singleton_append, List.isChain_cons_cons, List.isChain_cons_cons]
    constructor
    · rintro ⟨-, -, h⟩
      exact ⟨fun hc => absurd hc Nat.one_ne_zero, h⟩
    · rintro ⟨-, h⟩
      exact ⟨s.mayPrecede_nop, t.nop_mayPrecede, h⟩

/-- A use of the address is late enough, given what is before it: the last work is no late load, or one
empty step is left. -/
def Spaced (before : Program) (t : Step) : Prop :=
  before.slack % 2 = 0 → before.lastWork.MayPrecede t

/-- The passes after some work, with the empty steps held that they have passed. -/
theorem isChain_compact_trickleAfter (pre p : Program) :
    (pre.lastWork :: (trickleAfter pre.slack p).1.compact).IsChain Step.MayPrecede ↔
      ∀ before t after, p = before ++ t :: after → Spaced (pre ++ before) t := by
  -- the program before is what the passes remember, so it grows by a step in each case
  induction p generalizing pre with
  | nil =>
    rw [trickleAfter, compact_replicate]
    constructor
    · intro _ before t after hp
      exact absurd hp (by simp)
    · intro _
      rcases Nat.mod_two_eq_zero_or_one pre.slack with hn | hn
      · rw [hn]
        exact List.isChain_singleton _
      · rw [hn]
        exact List.isChain_pair.2 (Step.mayPrecede_nop _)
  | cons s p ih =>
    have hgrow := ih (pre ++ [s])
    simp only [List.append_assoc, List.singleton_append] at hgrow
    rw [@forall_split_cons (fun before t => Spaced (pre ++ before) t), List.append_nil, ← hgrow, trickleAfter]
    by_cases hn : s.isNop = true
    · rw [if_pos hn]
      rw [Step.isNop_iff] at hn
      subst hn
      rw [lastWork_append_nop, slack_append_nop]
      exact (and_iff_right fun _ => Step.mayPrecede_nop _).symm
    · rw [if_neg hn]
      rw [Bool.not_eq_true] at hn
      rw [lastWork_append hn]
      by_cases hp : s.isPinned = true
      · rw [if_pos hp, slack_append_pinned hp]
        dsimp only
        rw [compact_append_cons hn, compact_replicate, isChain_replicate_append]
        rfl
      · rw [if_neg hp]
        rw [Bool.not_eq_true] at hp
        rw [slack_append hn hp]
        dsimp only
        rw [compact_cons hn, List.isChain_cons_cons]
        -- a step that moves uses no address
        have huse : pre.lastWork.MayPrecede s := fun _ => Step.usesAddress_of_not_isPinned hp
        exact and_congr_left' ⟨fun h _ => h, fun _ => huse⟩

/-- What is left after moving work and dropping empty steps is waiting iff every use of the address is
spaced from the last work before it. -/
theorem waiting_compact_trickle_iff (p : Program) :
    p.trickle.1.compact.Waiting ↔ ∀ before t after, p = before ++ t :: after → Spaced before t := by
  have h := isChain_compact_trickleAfter [] p
  rw [show lastWork [] = .nop from rfl, show slack [] = 0 from rfl] at h
  simp only [List.nil_append] at h
  rw [← h, waiting_iff_isChain, List.isChain_cons]
  exact (and_iff_right fun t _ => t.nop_mayPrecede).symm

end Program

/-! ## Generated programs -/

/-- A waiting program after which the address can be used at once. -/
structure Program.Rested (p : Program) : Prop where
  chain : p.IsChain Step.MayPrecede
  last : ∀ s ∈ p.getLast?, s.word.loadsAddressLate = false

namespace Program.Rested

theorem nil : Rested [] :=
  ⟨.nil, fun _ hs => Option.noConfusion rfl (heq_of_eq hs)⟩

/-- One step is rested if it does not load the address register late. -/
theorem singleton {s : Step} (hs : s.word.loadsAddressLate = false) : Rested [s] where
  chain := .singleton s
  last t ht := by
    rw [← Option.some.inj ht]
    exact hs

theorem ofWord {w : Word} (hw : w.get .adrl = 0) : Rested [.ofWord w] :=
  @singleton (.ofWord w) (loadsAddressLate_of_adrl hw)

theorem nop : Rested [Step.nop] :=
  ofWord (get_zero _)

/-- A step may follow a rested program at once. -/
theorem append {p q : Program} (hp : p.Rested) (hq : q.Rested) : (p ++ q).Rested where
  chain := by
    refine List.isChain_append.2 ⟨hp.chain, hq.chain, ?_⟩
    intro s hs t _ hlate
    rw [hp.last s hs] at hlate
    exact Bool.noConfusion hlate
  last s hs := by
    rw [List.getLast?_append, Option.mem_def, Option.or_eq_some_iff] at hs
    rcases hs with hs | ⟨-, hs⟩
    · exact hq.last s hs
    · exact hp.last s hs

end Program.Rested

namespace Instruction

/-- A block that loads the address late ends with an empty step. -/
theorem rested_block (i : Instruction) (input : Input) (mode : ShiftMode) :
    Program.Rested (i.block input mode) := by
  cases i with
  | madrs line => exact .nil
  | select input => exact .nil
  | mode m => exact .nil
  | output o =>
    simp only [block]
    split
    · refine ⟨List.isChain_pair.2 (Step.mayPrecede_nop _), ?_⟩
      intro s hs
      obtain rfl : Step.nop = s := Option.some.inj hs
      exact loadsAddressLate_of_adrl (get_zero _)
    · next hlate =>
      rw [Bool.not_eq_true] at hlate
      exact .singleton hlate
  | mac m => exact .singleton (loadsAddressLate_of_adrl (Mac.get_step_of_not_mem (by decide)))
  | storeTemp r =>
    apply Program.Rested.ofWord
    rw [get_set_of_ne _ (by decide), get_set_of_ne _ (by decide), get_set_of_ne _ (by decide)]
    decide
  | store a =>
    have hadrl := a.get_writeWord_of_not_mem mode (show Field.adrl ∉ addressFields by decide)
      (by decide) (by decide)
    exact .ofWord hadrl
  | load a r =>
    have hread := a.get_readWord_of_not_mem (show Field.adrl ∉ readFields by decide)
    have hcommit := get_commitWord_of_not_mem r (show Field.adrl ∉ commitFields by decide)
    exact ((Program.Rested.ofWord hread).append .nop).append (.ofWord hcommit)

end Instruction

namespace Generator

/-- The generator waits for the address. -/
theorem waiting_ofLines (lines : List Text) : (ofLines lines).steps.Waiting := by
  have hrested : (ofLines lines).steps.Rested := by
    refine steps_ofLines_induction (fun p hp => hp.append .nop) ?_ .nil lines
    intro p i input mode _ hp
    exact hp.append (i.rested_block input mode)
  exact Program.waiting_iff_isChain.2 hrested.chain

end Generator

/-! ## Compiled programs -/

/-- **When an address loaded late is awaited.** The generated program waits for the address. The emitted
program does so exactly if, after the hoisting of loads, no use of the address has an even number of empty
steps since the last pinned step and a late load as the last work before it. -/
theorem compile_waiting_iff {source : Text} {c : Compiled} (h : compile source = .ok c) :
    c = listed source ∧ (generated source).Waiting ∧
    ((emitted source).Waiting ↔
      ∀ (before : Program) t after, (generated source).hoistLoads.1 = before ++ t :: after →
        before.slack % 2 = 0 → before.lastWork.word.loadsAddressLate = true →
        t.word.usesAddress = false) := by
  obtain ⟨-, -, -, hc⟩ := compile_eq_ok_iff.1 h
  refine ⟨hc, Generator.waiting_ofLines _, ?_⟩
  exact Program.waiting_compact_trickle_iff _

/-- A step that loads the address late at an odd index keeps its empty step, since a store may follow at
the next odd index. -/
theorem compile_waiting_iff_odd :
    compile (ascii "ST [temp:0]\nOUTPUT adrs/s\nST madrs:0/s") =
      .ok ⟨ascii "MPRO[0] = TWT YSEL BSEL\nMPRO[1] = YSEL ADRL SHIFT:3 BSEL\nMPRO[2] =\n" ++
        ascii "MPRO[3] = MWT ADREB\n", 4⟩ ∧
    ∀ (before : Program) t after,
      (generated (ascii "ST [temp:0]\nOUTPUT adrs/s\nST madrs:0/s")).hoistLoads.1 = before ++ t :: after →
      before.slack % 2 = 0 → before.lastWork.word.loadsAddressLate = true → t.word.usesAddress = false := by
  refine ⟨?compiled, (compile_waiting_iff ?compiled).2.2.1 ?waiting⟩
  case compiled =>
    apply eq_ok_of_toOption
    decide +kernel
  case waiting => decide +kernel

/-- A load through an address that has just been taken from the accumulator reads a step too early: its
read is hoisted onto the step that was left empty. -/
theorem not_waiting_emitted_load :
    compile (ascii "OUTPUT adrs/s\nLD madrs:0/s, mems:0\n") =
      .ok ⟨ascii "MPRO[0] = YSEL ADRL SHIFT:3 BSEL\nMPRO[1] = MRD ADREB\nMPRO[2] =\nMPRO[3] = IWT\n", 4⟩ ∧
    ¬ (emitted (ascii "OUTPUT adrs/s\nLD madrs:0/s, mems:0\n")).Waiting := by
  constructor
  · apply eq_ok_of_toOption
    decide +kernel
  · decide +kernel

end Microcode
