import Mathlib.Order.Bounds.Basic
import Microcode.Proofs.Program.Hoisting

/-!
# Slots for loads

`Slot` says, without any search, that a load may be moved to an earlier step: the step is odd, no step on
the way touches the register, writes memory or loads the address register that the read adds, no other
read is at the step, and no other commit is two steps behind it.

* The target of a load is the first of its slots. A load has no target if its register is used at the read
  or at the step behind it (`Blocked`), or if it has no slot (`hoistTarget_eq_some_iff`,
  `hoistTarget_eq_none_iff`).
* `search` finds the target without a look at all earlier steps: it walks back to the last step that bars
  the way, goes on to an odd step from there, and then tries every second step (`search_eq_hoistTarget`).
* A visit of the pass moves a load to its first slot, or leaves all as it is (`visit_cases`).
-/

namespace Microcode

open Word

/-- What it means that a step does not bar the way. -/
theorem Word.bars_eq_false_iff {w : Word} {r : Nat} {adreb : Bool} :
    w.bars r adreb = false ↔ w.readsInput r = false ∧ w.commitsTo r = false ∧ w.has .mwt = false ∧
      (adreb = true → w.has .adrl = false) := by
  cases adreb <;> simp [bars, uses, and_assoc]

namespace Program

/-- The register that the load at step `i` commits to. -/
def targetRegister (p : Program) (i : Nat) : Nat :=
  (p.wordAt (i + 2)).get .iwa

/-- The register of the load at step `i` is read or committed to at the step of the read or at the next
one. -/
def Blocked (p : Program) (i : Nat) : Prop :=
  ∃ k, (k = i ∨ k = i + 1) ∧ ((p.wordAt k).readsInput (p.targetRegister i) = true ∨
    (p.wordAt k).commitsTo (p.targetRegister i) = true)

/-- A read at step `i`, for register `r` and with or without the address register, may be moved to
step `t`. -/
@[mk_iff]
structure SlotFor (p : Program) (r : Nat) (adreb : Bool) (i t : Nat) : Prop where
  odd : t % 2 = 1
  before : t < i
  passed : ∀ k, t ≤ k → k < i → (p.wordAt k).readsInput r = false ∧ (p.wordAt k).commitsTo r = false ∧
    (p.wordAt k).has .mwt = false ∧ (adreb = true → (p.wordAt k).has .adrl = false)
  read : (p.wordAt t).has .mrd = false
  commit : (p.wordAt (t + 2)).has .iwt = false

instance (p : Program) (r : Nat) (adreb : Bool) (i t : Nat) : Decidable (p.SlotFor r adreb i t) :=
  decidable_of_iff _ (slotFor_iff p r adreb i t).symm

/-- The load at step `i` may be moved to step `t`. -/
def Slot (p : Program) (i t : Nat) : Prop :=
  p.SlotFor (p.targetRegister i) ((p.wordAt i).has .adreb) i t

instance (p : Program) (i t : Nat) : Decidable (p.Slot i t) :=
  inferInstanceAs (Decidable (p.SlotFor _ _ i t))

/-! ## The first slot -/

theorem blocked_iff {p : Program} {i : Nat} :
    p.Blocked i ↔ ((p.wordAt i).uses (p.targetRegister i) ||
      (p.wordAt (i + 1)).uses (p.targetRegister i)) = true := by
  simp only [Blocked, uses, Bool.or_eq_true]
  constructor
  · rintro ⟨k, rfl | rfl, h⟩
    · exact .inl h
    · exact .inr h
  · rintro (h | h)
    · exact ⟨i, .inl rfl, h⟩
    · exact ⟨i + 1, .inr rfl, h⟩

instance (p : Program) (i : Nat) : Decidable (p.Blocked i) :=
  decidable_of_iff _ blocked_iff.symm

/-- A slot is a free odd step within the reach of the load. -/
theorem slot_iff {p : Program} {i t : Nat} (hi : i ≤ p.length) :
    p.Slot i t ↔ t < i ∧ p.reach i ≤ t ∧ t % 2 = 1 ∧ p.isFree t = true := by
  constructor
  · intro h
    have hreach : p.reach i ≤ t :=
      (reach_le_iff hi (Nat.le_of_lt h.before)).2 fun k htk hki => bars_eq_false_iff.2 (h.passed k htk hki)
    have hmwt := (h.passed t (Nat.le_refl t) h.before).2.2.1
    refine ⟨h.before, hreach, h.odd, ?_⟩
    rw [isFree, h.read, hmwt, h.commit]
    rfl
  · rintro ⟨hlt, hreach, hodd, hfree⟩
    rw [reach_le_iff hi (Nat.le_of_lt hlt)] at hreach
    simp only [isFree, Bool.and_eq_true, Bool.not_eq_true'] at hfree
    exact ⟨hodd, hlt, fun k htk hki => bars_eq_false_iff.1 (hreach k htk hki), hfree.1.1, hfree.2⟩

/-- A load that is blocked is not hoisted. -/
theorem hoistTarget_of_blocked {p : Program} {i : Nat} (h : p.Blocked i) : p.hoistTarget i = none := by
  rw [blocked_iff] at h
  unfold hoistTarget
  exact if_pos h

/-- The search of a load that is not blocked runs through the slots. -/
theorem exists_hoistTarget_eq {p : Program} {i : Nat} (hi : i ≤ p.length) (h : ¬ p.Blocked i) :
    ∃ test : Nat → Bool, p.hoistTarget i = (List.range i).find? test ∧
      ∀ t, p.Slot i t ↔ t < i ∧ test t = true := by
  rw [blocked_iff] at h
  refine ⟨fun t => decide (p.reach i ≤ t) && t % 2 == 1 && p.isFree t, if_neg h, ?_⟩
  intro t
  rw [slot_iff hi]
  simp only [Bool.and_eq_true, decide_eq_true_eq, beq_iff_eq, and_assoc]

/-- The target of a load that is not blocked is its first slot. -/
theorem hoistTarget_eq_some_iff {p : Program} {i t : Nat} (hi : i ≤ p.length) (h : ¬ p.Blocked i) :
    p.hoistTarget i = some t ↔ IsLeast {t | p.Slot i t} t := by
  -- the target is the first index that passes a test for slots
  obtain ⟨test, heq, hslot⟩ := exists_hoistTarget_eq hi h
  rw [heq, List.find?_range_eq_some, List.mem_range]
  constructor
  · rintro ⟨htest, hlt, hbelow⟩
    refine ⟨(hslot t).2 ⟨hlt, htest⟩, ?_⟩
    intro u hu
    apply Nat.le_of_not_lt
    intro hut
    have hnot := hbelow u hut
    rw [((hslot u).1 hu).2] at hnot
    exact Bool.noConfusion hnot
  · rintro ⟨ht, hleast⟩
    obtain ⟨hlt, htest⟩ := (hslot t).1 ht
    refine ⟨htest, hlt, ?_⟩
    intro u hut
    rw [Bool.not_eq_true', Bool.eq_false_iff]
    intro hu
    exact Nat.not_le_of_lt hut (hleast ((hslot u).2 ⟨Nat.lt_trans hut hlt, hu⟩))

/-- A load has no target if it is blocked or has no slot. -/
theorem hoistTarget_eq_none_iff {p : Program} {i : Nat} (hi : i ≤ p.length) :
    p.hoistTarget i = none ↔ p.Blocked i ∨ ∀ t, ¬ p.Slot i t := by
  by_cases hb : p.Blocked i
  · exact iff_of_true (hoistTarget_of_blocked hb) (.inl hb)
  · obtain ⟨test, heq, hslot⟩ := exists_hoistTarget_eq hi hb
    rw [heq, List.find?_range_eq_none]
    constructor
    · intro h
      refine .inr fun t ht => ?_
      obtain ⟨hlt, htest⟩ := (hslot t).1 ht
      have hnot := h t hlt
      rw [htest] at hnot
      exact Bool.noConfusion hnot
    · rintro (h | h) t hlt
      · exact absurd h hb
      · rw [Bool.not_eq_true', Bool.eq_false_iff]
        exact fun htest => h t ((hslot t).2 ⟨hlt, htest⟩)

/-! ## A search by index -/

/-- The first odd index from `n` on. -/
def oddFrom (n : Nat) : Nat :=
  if n % 2 = 0 then n + 1 else n

/-- Tries every second step from `t` on, up to step `i`. -/
def trySecond (free : Nat → Bool) (i t : Nat) : Option Nat :=
  if t < i then if free t then some t else trySecond free i (t + 2) else none
termination_by i - t

/-- Searches for the target of a load: back to the last step that bars the way, up to an odd step, and then
forward to a free one. -/
def search (p : Program) (i : Nat) : Option Nat :=
  let r := p.targetRegister i
  let adreb := (p.wordAt i).has .adreb
  if (p.wordAt i).uses r || (p.wordAt (i + 1)).uses r then none
  else
    let first := walkBack (fun k => (p.wordAt k).bars r adreb) i
    trySecond p.isFree i (oddFrom first)

/-- Trying every second step finds the first free one among them. -/
theorem trySecond_eq_some_iff {free : Nat → Bool} {i t u : Nat} :
    trySecond free i t = some u ↔
      IsLeast {u | u < i ∧ t ≤ u ∧ u % 2 = t % 2 ∧ free u = true} u := by
  fun_induction trySecond free i t with
  | case1 t hlt hfree =>
    have hleast : IsLeast {u | u < i ∧ t ≤ u ∧ u % 2 = t % 2 ∧ free u = true} t :=
      ⟨⟨hlt, Nat.le_refl t, rfl, hfree⟩, fun u hu => hu.2.1⟩
    constructor
    · intro h
      rw [← Option.some.inj h]
      exact hleast
    · intro h
      rw [Nat.le_antisymm (h.2 hleast.1) (hleast.2 h.1)]
  | case2 t hlt hfree ih =>
    -- neither this step nor the one behind it is among the candidates
    have hset : {u | u < i ∧ t ≤ u ∧ u % 2 = t % 2 ∧ free u = true} =
        {u | u < i ∧ t + 2 ≤ u ∧ u % 2 = (t + 2) % 2 ∧ free u = true} := by
      ext u
      constructor
      · rintro ⟨hu, htu, hparity, hfu⟩
        have hne : u ≠ t := fun h => hfree (h ▸ hfu)
        exact ⟨hu, by omega, by omega, hfu⟩
      · rintro ⟨hu, htu, hparity, hfu⟩
        exact ⟨hu, by omega, by omega, hfu⟩
    rw [hset]
    exact ih
  | case3 t hlt =>
    refine iff_of_false (by simp) ?_
    rintro ⟨⟨hu, htu, -⟩, -⟩
    omega

theorem oddFrom_mod_two (n : Nat) : oddFrom n % 2 = 1 := by
  unfold oddFrom
  split <;> omega

theorem oddFrom_le_iff {n t : Nat} (ht : t % 2 = 1) : oddFrom n ≤ t ↔ n ≤ t := by
  unfold oddFrom
  split <;> omega

/-- The search by index finds the target. -/
theorem search_eq_hoistTarget {p : Program} {i : Nat} (hi : i ≤ p.length) :
    p.search i = p.hoistTarget i := by
  have hreach : walkBack
      (fun k => (p.wordAt k).bars (p.targetRegister i) ((p.wordAt i).has .adreb)) i = p.reach i :=
    (reach_eq_walkBack hi).symm
  unfold search
  dsimp only
  rw [hreach]
  by_cases hb : p.Blocked i
  · rw [hoistTarget_of_blocked hb]
    exact if_pos (blocked_iff.1 hb)
  · rw [if_neg fun h => hb (blocked_iff.2 h)]
    -- going up from the first odd step in steps of two meets exactly the slots
    have hset : {u | u < i ∧ oddFrom (p.reach i) ≤ u ∧ u % 2 = oddFrom (p.reach i) % 2 ∧
        p.isFree u = true} = {u | p.Slot i u} := by
      ext u
      rw [Set.mem_ofPred_eq, Set.mem_ofPred_eq, slot_iff hi, oddFrom_mod_two]
      constructor
      · rintro ⟨hlt, hle, hodd, hfree⟩
        exact ⟨hlt, (oddFrom_le_iff hodd).1 hle, hodd, hfree⟩
      · rintro ⟨hlt, hle, hodd, hfree⟩
        exact ⟨hlt, (oddFrom_le_iff hodd).2 hle, hodd, hfree⟩
    apply Option.ext
    intro t
    rw [trySecond_eq_some_iff, hset, hoistTarget_eq_some_iff hi hb]

/-! ## Visits -/

/-- A visit leaves all as it is, or moves a load that is not blocked to its first slot. -/
theorem visit_cases {p : Program} {i : Nat} (hi : i ≤ p.length) (n : Nat) :
    visit (p, n) i = (p, n) ∨
      ∃ t, p.isLoad i = true ∧ ¬ p.Blocked i ∧ IsLeast {t | p.Slot i t} t ∧
        visit (p, n) i = (p.hoist i t, n + 1) := by
  by_cases hnone : p.isLoad i = true → p.hoistTarget i = none
  · exact .inl (visit_eq_self hnone n)
  · obtain ⟨hload, htarget⟩ := Classical.not_imp.1 hnone
    obtain ⟨t, ht⟩ := Option.ne_none_iff_exists'.1 htarget
    have hb : ¬ p.Blocked i := fun hb => htarget (hoistTarget_of_blocked hb)
    exact .inr ⟨t, hload, hb, (hoistTarget_eq_some_iff hi hb).1 ht, visit_eq_hoist hload ht n⟩

/-- **The target of a load is its earliest slot.** Whatever the words of the program are, a load has no
target if the step of its read or the next one reads its register or commits to it. If none of them does,
its target is the first of its slots, and it has no target only if it has no slot. The search by index
finds the same. The pass visits one step after another: it leaves all as it is, or moves the load at the
step to its target, and then the four steps that it changes exist. -/
theorem hoistTarget_is_earliest_slot {p : Program} {i : Nat} (hi : i + 2 < p.length) :
    (p.Blocked i → p.hoistTarget i = none) ∧
    (¬ p.Blocked i → (∀ t, p.hoistTarget i = some t ↔ IsLeast {t | p.Slot i t} t) ∧
      (p.hoistTarget i = none ↔ ∀ t, ¬ p.Slot i t)) ∧
    p.search i = p.hoistTarget i ∧
    (3 ≤ i → p.hoistLoads = p.scan (p.length - 2) ∧ (p.scan (i + 1) = p.scan i ∨
      ∃ t, (p.scan i).1.hoistTarget i = some t ∧
        p.scan (i + 1) = ((p.scan i).1.hoist i t, (p.scan i).2 + 1) ∧
        t < p.length ∧ t + 2 < p.length ∧ i < p.length ∧ i + 2 < p.length)) := by
  have hle : i ≤ p.length := by omega
  refine ⟨hoistTarget_of_blocked, ?_, search_eq_hoistTarget hle, ?_⟩
  · intro hb
    refine ⟨fun t => hoistTarget_eq_some_iff hle hb, ?_⟩
    rw [hoistTarget_eq_none_iff hle, or_iff_right hb]
  · intro h3
    refine ⟨by rw [hoistLoads_eq_scan, show 3 + (p.length - 5) = p.length - 2 by omega], ?_⟩
    rw [scan_succ p h3]
    -- earlier visits have not changed the length
    have hlen : i ≤ (p.scan i).1.length := by rwa [length_scan p h3]
    rcases visit_cases hlen (p.scan i).2 with hsame | ⟨t, -, hb, hleast, hmoved⟩
    · exact .inl hsame
    · have hlt : t < i := hleast.1.before
      exact .inr ⟨t, (hoistTarget_eq_some_iff hlen hb).2 hleast, hmoved, by omega, by omega, by omega, hi⟩

/-- A load behind a step that reads its register. -/
def loadBehindReader : Program :=
  [.nop, .nop, .ofWord ((flags [.xsel]).set .ira 4), .nop, .nop, .ofWord (flags [.mrd]), .nop,
    .ofWord ((flags [.iwt]).set .iwa 4)]

/-- Of the earlier odd steps, the first one is before the step that reads the register, and the load moves
to the one behind it. -/
theorem hoistTarget_is_earliest_slot_reader :
    5 + 2 < loadBehindReader.length ∧ ¬ loadBehindReader.Blocked 5 ∧
    loadBehindReader.hoistTarget 5 = some 3 ∧ IsLeast {t | loadBehindReader.Slot 5 t} 3 := by
  have hlen : 5 + 2 < loadBehindReader.length := by decide
  have hb : ¬ loadBehindReader.Blocked 5 := by decide
  have ht : loadBehindReader.hoistTarget 5 = some 3 := by decide
  exact ⟨hlen, hb, ht, (((hoistTarget_is_earliest_slot hlen).2.1 hb).1 3).1 ht⟩

end Program

end Microcode
