import Microcode.Proofs.Generator.Session
import Microcode.Proofs.Machine.Basic
import Microcode.Proofs.Program.Slots

/-!
# The loads that one pass leaves

The pass that hoists loads visits every step once. This module says which loads it leaves where they are.

* A move makes no slots: what is a slot for a load up to the visited step, after the move, was one before
  (`SlotFor.of_hoist`). A moved load has gone to its first slot, so it has none any more.
* In a generated program, a load that is still to be visited stands alone (`ApartFrom`), and so no load is
  left because it is blocked.

By induction over the visits, no load of a generated program has a slot after the pass, and a second pass
moves nothing. For programs in general, a load stays exactly if it is blocked or has no slot; what the step
of the commit reads does not count.
-/

namespace Microcode

open Word Program

namespace Word

/-- What a step reads depends on its work only. -/
theorem readsInput_congr {v w : Word} (h : v.work = w.work) (r : Nat) :
    v.readsInput r = w.readsInput r := by
  unfold readsInput
  rw [@get_eq_of_work_eq v w h .ira (by decide) (by decide),
    @get_eq_of_work_eq v w h .shift (by decide) (by decide),
    @has_eq_of_work_eq v w h .xsel (by decide) (by decide),
    @has_eq_of_work_eq v w h .yrl (by decide) (by decide),
    @has_eq_of_work_eq v w h .adrl (by decide) (by decide)]

/-- A step without work reads nothing. -/
theorem readsInput_eq_false {w : Word} (h : w.work = 0) (r : Nat) : w.readsInput r = false := by
  rw [@readsInput_congr w 0 (by rw [h, work_zero])]
  simp [readsInput]

end Word

namespace Program

/-! ## Slots after a move -/

section Move

variable {p : Program} {i t : Nat}

/-- A move takes no commit away except the one of the load. -/
theorem HoistsTo.commitsTo_of_hoist (h : p.HoistsTo i t) {k r : Nat} (hk : k ≠ i + 2)
    (hc : ((p.hoist i t).wordAt k).commitsTo r = false) : (p.wordAt k).commitsTo r = false := by
  by_cases hkt : k = t + 2
  · -- where the commit goes, there was none
    rw [commitsTo, hkt, h.free_fields.2.2]
    rfl
  · have hpick : ((p.hoist i t).wordAt k).pick commitFields = (p.wordAt k).pick commitFields := by
      rw [h.pick_commitFields, if_neg hk, if_neg hkt]
    unfold commitsTo at hc ⊢
    rwa [has_eq_of_pick_eq hpick (by decide), get_eq_of_pick_eq hpick (by decide)] at hc

/-- A move makes no slot for a load up to the step that it starts from. -/
theorem SlotFor.of_hoist (h : p.HoistsTo i t) {r n u : Nat} {adreb : Bool} (hn : n ≤ i)
    (hs : (p.hoist i t).SlotFor r adreb n u) : p.SlotFor r adreb n u := by
  have hun := hs.before
  -- a move only fills the target and empties its source, which is not before the slot
  refine ⟨hs.odd, hun, ?_, ?_, ?_⟩
  · intro k huk hkn
    obtain ⟨hreads, hcommits, hmwt, hadrl⟩ := hs.passed k huk hkn
    refine ⟨?_, h.commitsTo_of_hoist (by omega) hcommits, ?_, ?_⟩
    · rwa [readsInput_congr (h.work k)] at hreads
    · rwa [h.has_mwt_hoist] at hmwt
    · intro ha
      have hadrl := hadrl ha
      rwa [h.has_of_not_mem k (by decide) (by decide)] at hadrl
  · have hread := hs.read
    rw [h.has_mrd_hoist, if_neg (by omega)] at hread
    split at hread
    · exact Bool.noConfusion hread
    · exact hread
  · have hcommit := hs.commit
    rw [h.has_iwt_hoist, if_neg (by omega)] at hcommit
    split at hcommit
    · exact Bool.noConfusion hcommit
    · exact hcommit

/-- A slot that the load would have at its target is a slot for the load itself. -/
theorem HoistsTo.slot_of_slotFor (h : p.HoistsTo i t) {u : Nat}
    (hs : p.SlotFor (p.targetRegister i) ((p.wordAt i).has .adreb) t u) : p.Slot i u := by
  refine ⟨hs.odd, Nat.lt_trans hs.before h.lt, ?_, hs.read, hs.commit⟩
  intro k huk hki
  rcases Nat.lt_or_ge k t with hlt | hge
  · exact hs.passed k huk hlt
  · exact bars_eq_false_iff.1 (h.passed k hge hki)

/-- The slots at a step depend on the load only through its register and its use of the address register. -/
theorem Slot.slotFor_of_pick_eq {q : Program} {n m u : Nat} (hs : q.Slot n u)
    (hread : (q.wordAt n).pick readFields = (p.wordAt m).pick readFields)
    (hcommit : (q.wordAt (n + 2)).pick commitFields = (p.wordAt (m + 2)).pick commitFields) :
    q.SlotFor (p.targetRegister m) ((p.wordAt m).has .adreb) n u := by
  rw [Slot, targetRegister, get_eq_of_pick_eq hcommit (by decide), has_eq_of_pick_eq hread (by decide)] at hs
  exact hs

/-! ## Loads without a slot -/

/-- No load from step 3 on and before step `n` has a slot. -/
def StuckBefore (n : Nat) (p : Program) : Prop :=
  ∀ k, 3 ≤ k → k < n → (p.wordAt k).has .mrd = true → ∀ u, ¬ p.Slot k u

/-- A load that moves to its first slot has no slot there, and the loads before it get none. -/
theorem StuckBefore.hoist (hp : p.StuckBefore i) (hd : p.Disciplined) (h : p.HoistsTo i t)
    (hleast : ∀ u, p.Slot i u → t ≤ u) : (p.hoist i t).StuckBefore (i + 1) := by
  intro k h3 hk hmrd u hu
  have hlt := h.lt
  have hki : k ≠ i := by
    rintro rfl
    rw [h.has_mrd_hoist, if_pos rfl] at hmrd
    exact Bool.noConfusion hmrd
  by_cases hkt : k = t
  · subst hkt
    -- nothing was in the way of the fields of the load, so it is the same load
    have hread : ((p.hoist i k).wordAt k).pick readFields = (p.wordAt i).pick readFields := by
      rw [h.pick_readFields, if_neg hki, if_pos rfl, (hd.orderly_wordAt k).pick_readFields h.free_access,
        zero_or]
    have hcommit : ((p.hoist i k).wordAt (k + 2)).pick commitFields =
        (p.wordAt (i + 2)).pick commitFields := by
      rw [h.pick_commitFields, if_neg (by omega), if_pos rfl,
        (hd.orderly_wordAt (k + 2)).pick_commitFields h.free_fields.2.2, zero_or]
    have hslot := (hu.slotFor_of_pick_eq hread hcommit).of_hoist h (Nat.le_of_lt hlt)
    exact Nat.not_le_of_lt hu.before (hleast u (h.slot_of_slotFor hslot))
  · have hread : ((p.hoist i t).wordAt k).pick readFields = (p.wordAt k).pick readFields := by
      rw [h.pick_readFields, if_neg hki, if_neg hkt]
    have hcommit : ((p.hoist i t).wordAt (k + 2)).pick commitFields =
        (p.wordAt (k + 2)).pick commitFields := by
      rw [h.pick_commitFields, if_neg (by omega), if_neg (by omega)]
    rw [h.has_mrd_hoist, if_neg hki, if_neg hkt] at hmrd
    exact hp k h3 (by omega) hmrd u ((hu.slotFor_of_pick_eq hread hcommit).of_hoist h (by omega))

/-! ## Loads that stand alone -/

/-- For the loads from step `n` on, the step of the read and the next one do nothing else and commit
nothing. -/
def ApartFrom (n : Nat) (p : Program) : Prop :=
  ∀ k, n ≤ k → (p.wordAt k).has .mrd = true → ∀ j, k ≤ j → j ≤ k + 1 →
    (p.wordAt j).work = 0 ∧ (p.wordAt j).has .iwt = false

/-- Fewer loads stand apart if all do. -/
theorem ApartFrom.mono {n m : Nat} (h : p.ApartFrom n) (hnm : n ≤ m) : p.ApartFrom m :=
  fun k hk => h k (Nat.le_trans hnm hk)

/-- A load that stands alone is not blocked. -/
theorem ApartFrom.not_blocked {n k : Nat} (h : p.ApartFrom n) (hk : n ≤ k)
    (hmrd : (p.wordAt k).has .mrd = true) : ¬ p.Blocked k := by
  rintro ⟨j, hj, hreads | hcommits⟩
  · rw [readsInput_eq_false (h k hk hmrd j (by omega) (by omega)).1] at hreads
    exact Bool.noConfusion hreads
  · rw [commitsTo, (h k hk hmrd j (by omega) (by omega)).2] at hcommits
    exact Bool.noConfusion hcommits

/-- A move brings its commit before the loads that are still to be visited. -/
theorem ApartFrom.hoist (hp : p.ApartFrom i) (hd : p.Disciplined) (h : p.HoistsTo i t) :
    (p.hoist i t).ApartFrom (i + 1) := by
  intro k hk hmrd j hkj hjk
  have hlt := h.lt
  rw [h.has_mrd_hoist, if_neg (by omega), if_neg (by omega)] at hmrd
  have hiodd : i % 2 = 1 := hd.timed.odd (.inl h.has_mrd)
  have hkodd : k % 2 = 1 := hd.timed.odd (.inl hmrd)
  have htodd := h.odd
  obtain ⟨hwork, hiwt⟩ := hp k (by omega) hmrd j hkj hjk
  refine ⟨by rw [h.work, hwork], ?_⟩
  rw [h.has_iwt_hoist]
  split
  · rfl
  · rw [if_neg (by omega), hiwt]

/-- The loads of a generated program stand alone: two of them have at least four steps from read to read. -/
theorem Generated.apartFrom (hp : p.Generated) (ha : p.LoadsApart) (n : Nat) : p.ApartFrom n := by
  intro k _ hmrd j hkj hjk
  rcases Nat.lt_or_eq_of_le hkj with hlt | rfl
  · obtain rfl : j = k + 1 := by omega
    rw [wordAt, (ha k hmrd).1]
    exact ⟨work_zero, has_zero _⟩
  · refine ⟨(hp.bareFrom k k (Nat.le_refl k) hmrd).1, ?_⟩
    rw [Bool.eq_false_iff]
    intro hiwt
    -- the step would be the commit of another load, and that one reads nothing
    obtain ⟨h2, hbefore⟩ := hp.timed.commit hiwt
    obtain ⟨-, r, hcommit⟩ := ha (k - 2) hbefore
    rw [show k - 2 + 2 = k by omega] at hcommit
    rw [wordAt, hcommit] at hmrd
    exact has_iff.1 hmrd (get_commitWord_of_not_mem r (by decide))

end Move

/-! ## The pass over a generated program -/

/-- What holds when the pass over a generated program gets to step `n`. -/
structure PassedTo (n : Nat) (p : Program) : Prop where
  disciplined : p.Disciplined
  apart : p.ApartFrom n
  bare : p.BareFrom n
  stuck : p.StuckBefore n

/-- In a disciplined program every read has its commit. -/
theorem Disciplined.isLoad {p : Program} (h : p.Disciplined) {i : Nat}
    (hmrd : (p.wordAt i).has .mrd = true) : p.isLoad i = true := by
  rw [Program.isLoad, (timed_iff.1 h.timed).2.2.2 i, hmrd]
  rfl

/-- A load that a visit leaves has no slot. -/
theorem PassedTo.skip {p : Program} {i : Nat} (h : p.PassedTo i)
    (hnone : p.isLoad i = true → p.hoistTarget i = none) : p.PassedTo (i + 1) := by
  refine ⟨h.disciplined, h.apart.mono (Nat.le_succ i), fun k hk => h.bare k (Nat.le_of_succ_le hk), ?_⟩
  intro k h3 hk hmrd
  rcases Nat.lt_succ_iff_lt_or_eq.1 hk with hlt | rfl
  · exact h.stuck k h3 hlt hmrd
  · have hle : k ≤ p.length := Nat.le_of_lt (lt_length_of_has hmrd)
    have htarget := (hoistTarget_eq_none_iff hle).1 (hnone (h.disciplined.isLoad hmrd))
    exact htarget.resolve_left (h.apart.not_blocked (Nat.le_refl k) hmrd)

/-- A move takes the pass to the next step. -/
theorem PassedTo.hoist {p : Program} {i t : Nat} (h : p.PassedTo i) (hl : p.isLoad i = true)
    (ht : p.hoistTarget i = some t) : (p.hoist i t).PassedTo (i + 1) := by
  have hto := hoistTarget_eq_some hl ht
  have hle : i ≤ p.length := Nat.le_of_lt (lt_length_of_has hto.has_mrd)
  have hb : ¬ p.Blocked i := h.apart.not_blocked (Nat.le_refl i) hto.has_mrd
  have hleast := ((hoistTarget_eq_some_iff hle hb).1 ht).2
  exact ⟨h.disciplined.hoist hto, h.apart.hoist h.disciplined hto, h.bare.hoist hto,
    h.stuck.hoist h.disciplined hto fun u hu => hleast hu⟩

end Program

/-- The loads of a source stand apart. -/
theorem Generator.loadsApart_ofLines (lines : List Text) : (ofLines lines).steps.LoadsApart := by
  refine steps_ofLines_induction (fun p hp => hp.append .nop) ?_ ?_ lines
  · intro p i input mode _ hp
    exact hp.append (i.loadsApart_block input mode)
  · exact .of_not_mrd fun s hs => absurd hs List.not_mem_nil

/-- The invariant of the pass holds at every step, by induction over the visits. -/
theorem Generator.passedTo_scan (lines : List Text) {i : Nat} (hi : 3 ≤ i) :
    ((ofLines lines).steps.scan i).1.PassedTo i := by
  have hgen := generated_ofLines lines
  refine Program.scan_induction ?_ ?_ ?_ hi
  · refine ⟨hgen.disciplined, hgen.apartFrom (loadsApart_ofLines lines) 3, hgen.bareFrom 3, ?_⟩
    intro k h3 hk
    omega
  · intro i q _ hq hnone
    exact hq.skip hnone
  · intro i t q _ hq hl ht
    exact hq.hoist hl ht

namespace Program

/-- A pass over a program whose loads have no targets does nothing. -/
theorem hoistLoads_eq_self {p : Program} (h : ∀ i, 3 ≤ i → p.isLoad i = true → p.hoistTarget i = none) :
    p.hoistLoads = (p, 0) := by
  rw [hoistLoads_eq_scan]
  induction p.length - 5 with
  | zero => rfl
  | succ n ih =>
    rw [← Nat.add_assoc, scan_succ p (Nat.le_add_right 3 n), ih]
    exact visit_eq_self (h _ (Nat.le_add_right 3 n)) 0

end Program

/-- **One pass over the loads is enough.** After the pass over a generated program, every read from step 3 on
is still committed two steps later, and it has no slot. A second pass moves nothing. -/
theorem hoistLoads_once (lines : List Text) :
    (Generator.ofLines lines).steps.hoistLoads.1.hoistLoads =
      ((Generator.ofLines lines).steps.hoistLoads.1, 0) ∧
    ∀ i, 3 ≤ i → ((Generator.ofLines lines).steps.hoistLoads.1.wordAt i).has .mrd = true →
      ((Generator.ofLines lines).steps.hoistLoads.1.wordAt (i + 2)).has .iwt = true ∧
        ∀ t, ¬ (Generator.ofLines lines).steps.hoistLoads.1.Slot i t := by
  have hpassed := Generator.passedTo_scan lines (Nat.le_add_right 3 ((Generator.ofLines lines).steps.length - 5))
  have hlength := length_hoistLoads (Generator.ofLines lines).steps
  rw [← hoistLoads_eq_scan] at hpassed
  generalize (Generator.ofLines lines).steps.hoistLoads.1 = q at hpassed hlength ⊢
  have hstuck : ∀ i, 3 ≤ i → (q.wordAt i).has .mrd = true →
      (q.wordAt (i + 2)).has .iwt = true ∧ ∀ t, ¬ q.Slot i t := by
    intro i h3 hmrd
    have hiwt : (q.wordAt (i + 2)).has .iwt = true :=
      (Bool.and_eq_true_iff.1 (hpassed.disciplined.isLoad hmrd)).2
    -- the commit is in the program, so the pass has visited the load
    have hlt : i + 2 < q.length := lt_length_of_has hiwt
    exact ⟨hiwt, hpassed.stuck i h3 (by omega) hmrd⟩
  refine ⟨hoistLoads_eq_self ?_, hstuck⟩
  intro i h3 hload
  have hmrd : (q.wordAt i).has .mrd = true := (Bool.and_eq_true_iff.1 hload).1
  have hle : i ≤ q.length := Nat.le_of_lt (lt_length_of_has hmrd)
  exact (hoistTarget_eq_none_iff hle).2 (.inr (hstuck i h3 hmrd).2)

/-! ## Loads that stay -/

/-- **When a load stays.** Whatever the words of a program are, the pass leaves the load at a step where it is
exactly if the step of the read or the next one uses its register, or if the load has no slot. The step of the
commit may read the register or not. In a generated program, none of the three steps of a load reads
anything when the pass gets to it. -/
theorem load_stays_iff {p : Program} {i : Nat} (h3 : 3 ≤ i) (hload : (p.scan i).1.isLoad i = true) :
    (p.scan (i + 1) = p.scan i ↔ (p.scan i).1.Blocked i ∨ ∀ t, ¬ (p.scan i).1.Slot i t) ∧
    ∀ lines, p = (Generator.ofLines lines).steps →
      ∀ k, i ≤ k → k ≤ i + 2 → ∀ r, ((p.scan i).1.wordAt k).readsInput r = false := by
  have hmrd : ((p.scan i).1.wordAt i).has .mrd = true := (Bool.and_eq_true_iff.1 hload).1
  constructor
  · have hle : i ≤ (p.scan i).1.length := Nat.le_of_lt (lt_length_of_has hmrd)
    rw [← hoistTarget_eq_none_iff hle, scan_succ p h3]
    constructor
    · intro hsame
      rw [Option.eq_none_iff_forall_ne_some]
      intro t ht
      -- a move would have been counted
      have hcount := congrArg Prod.snd ((visit_eq_hoist hload ht (p.scan i).2).symm.trans hsame)
      exact Nat.succ_ne_self _ hcount
    · intro hnone
      exact visit_eq_self (fun _ => hnone) (p.scan i).2
  · rintro lines rfl k hik hki r
    have hpassed := Generator.passedTo_scan lines h3
    apply readsInput_eq_false
    rcases Nat.lt_or_ge k (i + 2) with hlt | hge
    · exact (hpassed.apart i (Nat.le_refl i) hmrd k hik (by omega)).1
    · rw [show k = i + 2 by omega]
      exact (hpassed.bare i (Nat.le_refl i) hmrd).2

/-- A load with a step that takes the value of the register right behind its read. -/
def loadBeforeReader : Program :=
  [.nop, .nop, .nop, .ofWord (flags [.mrd]), .ofWord ((flags [.yrl]).set .ira 2),
    .ofWord ((flags [.iwt]).set .iwa 2)]

/-- It stays, though it has a slot. -/
theorem load_stays_iff_reader :
    3 ≤ 3 ∧ (loadBeforeReader.scan 3).1.isLoad 3 = true ∧ (loadBeforeReader.scan 3).1.Blocked 3 ∧
    (loadBeforeReader.scan 3).1.Slot 3 1 ∧ loadBeforeReader.scan (3 + 1) = loadBeforeReader.scan 3 := by
  have hload : (loadBeforeReader.scan 3).1.isLoad 3 = true := by decide
  have hb : (loadBeforeReader.scan 3).1.Blocked 3 := by decide
  exact ⟨Nat.le_refl 3, hload, hb, by decide, (load_stays_iff (Nat.le_refl 3) hload).1.2 (.inl hb)⟩

/-- A load whose commit comes in a step that takes the value of the register. -/
def loadWithReadingCommit : Program :=
  [.nop, .nop, .nop, .ofWord (flags [.mrd]), .nop, .ofWord (((flags [.xsel, .iwt]).set .ira 2).set .iwa 2)]

/-- A datapath that keeps the last input, with a memory that holds `true` everywhere. -/
def latch : Datapath Unit Unit Bool Bool where
  act w _ v c := if w.has .xsel then ⟨c.mem, c.adr, v.getD c.dat⟩ else c
  read _ _ _ := true
  act_zero v c := by simp
  mem_act _ _ _ _ _ := rfl
  adr_act _ _ _ _ _ := rfl

/-- The load is moved although the step of its commit reads the register, and so the step takes what was loaded
instead of what was in the register before. -/
theorem load_moves_over_reading_commit :
    (loadWithReadingCommit.scan 3).1.isLoad 3 = true ∧
    ((loadWithReadingCommit.scan 3).1.wordAt (3 + 2)).readsInput
      ((loadWithReadingCommit.scan 3).1.targetRegister 3) = true ∧
    loadWithReadingCommit.scan (3 + 1) ≠ loadWithReadingCommit.scan 3 ∧
    loadWithReadingCommit.hoistLoads =
      ([.nop, .ofWord (flags [.mrd]), .nop, .ofWord ((flags [.iwt]).set .iwa 2), .nop,
        .ofWord ((flags [.xsel]).set .ira 2)], 1) ∧
    (latch.run loadWithReadingCommit ⟨⟨(), (), false⟩, fun _ => false, none, none⟩).core.dat = false ∧
    (latch.run loadWithReadingCommit.hoistLoads.1 ⟨⟨(), (), false⟩, fun _ => false, none, none⟩).core.dat =
      true := by
  refine ⟨?_, ?_, ?_, ?_, ?_, ?_⟩ <;> decide

end Microcode
