import Microcode.Proofs.Program.Discipline

/-!
# What a hoist does

A hoist takes the load at step `i` to an earlier step `t`. This module says once what that means:

* `HoistsTo` lists what is known of a target, and `hoistTarget_eq_some` reads it off the search;
* the words afterwards, in three parts: the fields of reads and of commits move as a whole
  (`HoistsTo.pick_readFields`, `HoistsTo.pick_commitFields`), and all else stays (`HoistsTo.work`);
* `scan` is the state of the pass at a step, and `scan_induction` and `hoistLoads_induction` reduce a fact
  about the pass to one about a single hoist.

The discipline of memory accesses is the first use (`Disciplined.hoistLoads`).
-/

namespace Microcode

namespace Word

/-- What a step does apart from loads: its word without the fields of reads and commits. -/
def work (w : Word) : Word :=
  (w.clear readFields).clear commitFields

@[simp] theorem work_zero : (0 : Word).work = 0 := by
  simp [work]

/-- A read and a commit share no bit. -/
theorem readFields_disjoint_commitFields : maskOf readFields &&& maskOf commitFields = 0 := by
  decide

theorem commitFields_disjoint_readFields : maskOf commitFields &&& maskOf readFields = 0 := by
  decide

theorem get_work {w : Word} {f : Field} (hr : f ∉ readFields) (hc : f ∉ commitFields) :
    w.work.get f = w.get f := by
  rw [work, get_clear, if_neg hc, get_clear, if_neg hr]

theorem has_work {w : Word} {f : Field} (hr : f ∉ readFields) (hc : f ∉ commitFields) :
    w.work.has f = w.has f := by
  rw [has_eq, get_work hr hc, has_eq]

theorem has_pick_of_mem (w : Word) {fs : List Field} {f : Field} (h : f ∈ fs) :
    (w.pick fs).has f = w.has f := by
  rw [has_pick, decide_eq_true h, Bool.true_and]

theorem get_pick_of_mem (w : Word) {fs : List Field} {f : Field} (h : f ∈ fs) :
    (w.pick fs).get f = w.get f := by
  rw [get_pick, if_pos h]

/-- The fields apart from those of loads depend on the work of a word only. -/
theorem get_eq_of_work_eq {v w : Word} (h : v.work = w.work) {f : Field} (hr : f ∉ readFields)
    (hc : f ∉ commitFields) : v.get f = w.get f := by
  rw [← get_work hr hc, h, get_work hr hc]

theorem has_eq_of_work_eq {v w : Word} (h : v.work = w.work) {f : Field} (hr : f ∉ readFields)
    (hc : f ∉ commitFields) : v.has f = w.has f := by
  rw [← has_work hr hc, h, has_work hr hc]

theorem get_eq_of_pick_eq {v w : Word} {fs : List Field} (h : v.pick fs = w.pick fs) {f : Field}
    (hf : f ∈ fs) : v.get f = w.get f := by
  rw [← get_pick_of_mem v hf, h, get_pick_of_mem w hf]

theorem has_eq_of_pick_eq {v w : Word} {fs : List Field} (h : v.pick fs = w.pick fs) {f : Field}
    (hf : f ∈ fs) : v.has f = w.has f := by
  rw [← has_pick_of_mem v hf, h, has_pick_of_mem w hf]

end Word

namespace Program

open Word

/-! ## The search for a target -/

/-- Walks back from step `i` and stops behind the first step that bars the way. -/
def walkBack (barred : Nat → Bool) : (i : Nat) → Nat
  | 0 => 0
  | i + 1 => if barred i then i + 1 else walkBack barred i

theorem walkBack_le (barred : Nat → Bool) (i : Nat) : walkBack barred i ≤ i := by
  induction i with
  | zero => exact Nat.le_refl 0
  | succ i ih =>
    rw [walkBack]
    split
    · exact Nat.le_refl (i + 1)
    · exact Nat.le_succ_of_le ih

/-- The walk gets to step `t` or beyond iff no step from `t` on bars the way. -/
theorem walkBack_le_iff {barred : Nat → Bool} {i t : Nat} (ht : t ≤ i) :
    walkBack barred i ≤ t ↔ ∀ k, t ≤ k → k < i → barred k = false := by
  induction i with
  | zero =>
    refine iff_of_true (Nat.zero_le t) ?_
    intro k _ hk
    omega
  | succ i ih =>
    rcases Nat.lt_or_eq_of_le ht with hlt | rfl
    · rw [walkBack]
      split
      · next hbarred =>
        -- the walk stops at once
        constructor
        · intro h
          omega
        · intro h
          rw [h i (by omega) (Nat.lt_succ_self i)] at hbarred
          exact Bool.noConfusion hbarred
      · next hbarred =>
        rw [ih (Nat.le_of_lt_succ hlt)]
        constructor
        · intro h k hk hki
          rcases Nat.lt_succ_iff_lt_or_eq.1 hki with hki | rfl
          · exact h k hk hki
          · exact Bool.eq_false_iff.2 hbarred
        · intro h k hk hki
          exact h k hk (Nat.lt_succ_of_lt hki)
    · refine iff_of_true (walkBack_le barred (i + 1)) ?_
      intro k hk hki
      omega

/-- The walk goes over the longest run of steps before step `i` that do not bar the way. -/
theorem sub_length_takeWhile (q : Step → Bool) {p : Program} {i : Nat} (hi : i ≤ p.length) :
    i - ((p.take i).reverse.takeWhile q).length = walkBack (fun k => !q (p[k]?.getD .nop)) i := by
  induction i with
  | zero => rw [Nat.zero_sub, walkBack]
  | succ i ih =>
    -- the step before the start of the walk is the head of the reversed list
    have hget : p[i]?.getD .nop = p[i] := by
      rw [List.getElem?_eq_getElem hi, Option.getD_some]
    rw [List.take_succ_eq_append_getElem hi, List.reverse_append, List.reverse_singleton,
      List.singleton_append, List.takeWhile_cons, walkBack, hget, ← ih (Nat.le_of_succ_le hi)]
    cases q p[i]
    · rfl
    · exact Nat.add_sub_add_right i 1 _

theorem reach_eq_walkBack {p : Program} {i : Nat} (hi : i ≤ p.length) :
    p.reach i = walkBack
      (fun k => (p.wordAt k).bars ((p.wordAt (i + 2)).get .iwa) ((p.wordAt i).has .adreb)) i := by
  unfold reach
  simp only [sub_length_takeWhile _ hi, Bool.not_not]
  rfl

/-- The reach of a load: no step from `t` on bars the way iff the load can get to `t`. -/
theorem reach_le_iff {p : Program} {i t : Nat} (hi : i ≤ p.length) (ht : t ≤ i) :
    p.reach i ≤ t ↔ ∀ k, t ≤ k → k < i →
      (p.wordAt k).bars ((p.wordAt (i + 2)).get .iwa) ((p.wordAt i).has .adreb) = false := by
  rw [reach_eq_walkBack hi, walkBack_le_iff ht]

/-- Step `t` is a place for the load at step `i`. -/
structure HoistsTo (p : Program) (i t : Nat) : Prop where
  load : p.isLoad i = true
  lt : t < i
  odd : t % 2 = 1
  free : p.isFree t = true
  /-- The step of the read does not use the register. -/
  read : (p.wordAt i).uses ((p.wordAt (i + 2)).get .iwa) = false
  /-- The step between read and commit does not use the register. -/
  between : (p.wordAt (i + 1)).uses ((p.wordAt (i + 2)).get .iwa) = false
  /-- No step that is passed bars the way. -/
  passed : ∀ k, t ≤ k → k < i →
    (p.wordAt k).bars ((p.wordAt (i + 2)).get .iwa) ((p.wordAt i).has .adreb) = false

/-- A target that is found is one that a load can be hoisted to. -/
theorem hoistTarget_eq_some {p : Program} {i t : Nat} (hl : p.isLoad i = true)
    (h : p.hoistTarget i = some t) : p.HoistsTo i t := by
  unfold hoistTarget at h
  dsimp only at h
  split at h
  · exact absurd h (by simp)
  · next hu =>
    rw [Bool.or_eq_true, not_or, Bool.not_eq_true, Bool.not_eq_true] at hu
    have hmem := List.mem_of_find?_eq_some h
    have hprop := List.find?_some h
    rw [List.mem_range] at hmem
    simp only [Bool.and_eq_true, decide_eq_true_eq, beq_iff_eq] at hprop
    obtain ⟨⟨hreach, hodd⟩, hfree⟩ := hprop
    have hi : i < p.length := lt_length_of_has (Bool.and_eq_true_iff.1 hl).1
    exact ⟨hl, hmem, hodd, hfree, hu.1, hu.2,
      (reach_le_iff (Nat.le_of_lt hi) (Nat.le_of_lt hmem)).1 hreach⟩

/-! ## Coefficients after a hoist -/

theorem coefs_modifyWord (p : Program) (i : Nat) (f : Word → Word) :
    (p.modifyWord i f).coefs = p.coefs := by
  apply List.ext_getElem?
  intro k
  simp only [coefs, modifyWord, List.getElem?_map, List.getElem?_modify]
  cases p[k]? with
  | none => rfl
  | some s =>
    by_cases hk : i = k <;> simp [hk]

/-- Coefficients stay where they are. -/
theorem coefs_hoist (p : Program) (i t : Nat) : (p.hoist i t).coefs = p.coefs := by
  unfold hoist moveFields
  simp only [coefs_modifyWord]

theorem getElem_hoist_coef {p : Program} {i t k : Nat} (hk : k < p.length)
    (hk' : k < (p.hoist i t).length) : (p.hoist i t)[k].coef = p[k].coef := by
  have h : (p.hoist i t).coefs[k]? = p.coefs[k]? := by rw [coefs_hoist]
  simpa [coefs, List.getElem?_eq_getElem hk, List.getElem?_eq_getElem hk'] using h

/-! ## Words after a hoist -/

/-- Changing the word of a step changes no other one. -/
theorem wordAt_modifyWord {p : Program} {i : Nat} (hi : i < p.length) (f : Word → Word) (k : Nat) :
    (p.modifyWord i f).wordAt k = if k = i then f (p.wordAt k) else p.wordAt k := by
  unfold modifyWord wordAt
  rw [List.getElem?_modify]
  by_cases hk : k = i
  · subst hk
    simp [List.getElem?_eq_getElem hi]
  · rw [if_neg hk]
    cases p[k]? with
    | none => rfl
    | some s => simp [Ne.symm hk]

/-- Fields are taken out of one step and put into the other. -/
theorem wordAt_moveFields {p : Program} {source target : Nat} (hs : source < p.length)
    (ht : target < p.length) (hne : source ≠ target) (fs : List Field) (k : Nat) :
    (p.moveFields fs source target).wordAt k =
      if k = source then (p.wordAt source).clear fs
      else if k = target then p.wordAt target ||| (p.wordAt source).pick fs else p.wordAt k := by
  unfold moveFields
  rw [wordAt_modifyWord (by simpa using hs), wordAt_modifyWord ht]
  by_cases hk : k = source
  · subst hk
    rw [if_pos rfl, if_pos rfl, if_neg hne]
  · rw [if_neg hk, if_neg hk]
    by_cases hkt : k = target
    · rw [if_pos hkt, if_pos hkt, hkt]
    · rw [if_neg hkt, if_neg hkt]

/-- Moving fields leaves the rest of every word alone. -/
theorem clear_moveFields {p : Program} {source target : Nat} (hs : source < p.length)
    (ht : target < p.length) (hne : source ≠ target) (fs : List Field) (k : Nat) :
    ((p.moveFields fs source target).wordAt k).clear fs = (p.wordAt k).clear fs := by
  rw [wordAt_moveFields hs ht hne]
  split
  · next hk => rw [clear_clear, hk]
  · split
    · next hk => rw [clear_or, clear_pick, or_zero, hk]
    · rfl

/-- Moving fields empties them at the source and adds them at the target. -/
theorem pick_moveFields {p : Program} {source target : Nat} (hs : source < p.length)
    (ht : target < p.length) (hne : source ≠ target) (fs : List Field) (k : Nat) :
    ((p.moveFields fs source target).wordAt k).pick fs =
      if k = source then 0
      else if k = target then (p.wordAt target).pick fs ||| (p.wordAt source).pick fs
      else (p.wordAt k).pick fs := by
  rw [wordAt_moveFields hs ht hne]
  split
  · rw [pick_clear]
  · split
    · rw [pick_or, pick_pick]
    · rfl

namespace HoistsTo

variable {p : Program} {i t : Nat}

theorem has_mrd (h : p.HoistsTo i t) : (p.wordAt i).has .mrd = true :=
  (Bool.and_eq_true_iff.1 h.load).1

theorem has_iwt (h : p.HoistsTo i t) : (p.wordAt (i + 2)).has .iwt = true :=
  (Bool.and_eq_true_iff.1 h.load).2

theorem length (h : p.HoistsTo i t) : i + 2 < p.length :=
  lt_length_of_has h.has_iwt

/-- The target has no access, and nothing is committed where the load would commit. -/
theorem free_fields (h : p.HoistsTo i t) :
    (p.wordAt t).has .mrd = false ∧ (p.wordAt t).has .mwt = false ∧
      (p.wordAt (t + 2)).has .iwt = false := by
  have hf := h.free
  simpa [isFree, and_assoc] using hf

theorem free_access (h : p.HoistsTo i t) : (p.wordAt t).accessesMemory = false := by
  obtain ⟨hr, hw, -⟩ := h.free_fields
  rw [accessesMemory, hr, hw]
  rfl

/-- No step on the way back uses the register, writes to memory or loads the address that is read with. -/
theorem not_bars (h : p.HoistsTo i t) {k : Nat} (htk : t ≤ k) (hki : k < i) :
    (p.wordAt k).uses ((p.wordAt (i + 2)).get .iwa) = false ∧ (p.wordAt k).has .mwt = false ∧
      ((p.wordAt i).has .adreb = true → (p.wordAt k).has .adrl = false) := by
  have hb := h.passed k htk hki
  rw [bars, Bool.or_eq_false_iff, Bool.or_eq_false_iff] at hb
  refine ⟨hb.1.1, hb.1.2, ?_⟩
  intro ha
  simpa [ha] using hb.2

/-- The reads after a hoist: none is left at the source, the target has taken the one from there. -/
theorem pick_readFields (h : p.HoistsTo i t) (k : Nat) :
    ((p.hoist i t).wordAt k).pick readFields =
      if k = i then 0
      else if k = t then (p.wordAt t).pick readFields ||| (p.wordAt i).pick readFields
      else (p.wordAt k).pick readFields := by
  have hlen := h.length
  have hlt := h.lt
  unfold hoist
  rw [← pick_clear_of_disjoint _ readFields_disjoint_commitFields,
    clear_moveFields (by simpa using hlen) (by rw [length_moveFields]; omega) (by omega),
    pick_clear_of_disjoint _ readFields_disjoint_commitFields,
    pick_moveFields (by omega) (by omega) (by omega)]

/-- The commits after a hoist. -/
theorem pick_commitFields (h : p.HoistsTo i t) (k : Nat) :
    ((p.hoist i t).wordAt k).pick commitFields =
      if k = i + 2 then 0
      else if k = t + 2 then
        (p.wordAt (t + 2)).pick commitFields ||| (p.wordAt (i + 2)).pick commitFields
      else (p.wordAt k).pick commitFields := by
  have hlen := h.length
  have hlt := h.lt
  -- the first move does not touch the fields of commits anywhere
  have hfirst : ∀ k, ((p.moveFields readFields i t).wordAt k).pick commitFields =
      (p.wordAt k).pick commitFields := by
    intro k
    rw [← pick_clear_of_disjoint _ commitFields_disjoint_readFields,
      clear_moveFields (by omega) (by omega) (by omega),
      pick_clear_of_disjoint _ commitFields_disjoint_readFields]
  unfold hoist
  rw [pick_moveFields (by simpa using hlen) (by rw [length_moveFields]; omega) (by omega)]
  simp only [hfirst]

/-- A hoist changes nothing but reads and commits. -/
theorem work (h : p.HoistsTo i t) (k : Nat) : ((p.hoist i t).wordAt k).work = (p.wordAt k).work := by
  have hlen := h.length
  have hlt := h.lt
  unfold hoist Word.work
  rw [clear_comm, clear_moveFields (by simpa using hlen) (by rw [length_moveFields]; omega) (by omega),
    clear_comm, clear_moveFields (by omega) (by omega) (by omega)]

theorem clear_all (h : p.HoistsTo i t) (k : Nat) :
    ((p.hoist i t).wordAt k).clear Field.all = (p.wordAt k).clear Field.all := by
  have hw := congrArg (Word.clear · Field.all) (h.work k)
  simpa only [Word.work, clear_all_clear] using hw

/-- A field that belongs neither to reads nor to commits stays. -/
theorem has_of_not_mem (h : p.HoistsTo i t) (k : Nat) {f : Field} (hr : f ∉ readFields)
    (hc : f ∉ commitFields) : ((p.hoist i t).wordAt k).has f = (p.wordAt k).has f :=
  has_eq_of_work_eq (h.work k) hr hc

/-- No write is moved. -/
theorem has_mwt_hoist (h : p.HoistsTo i t) (k : Nat) :
    ((p.hoist i t).wordAt k).has .mwt = (p.wordAt k).has .mwt :=
  h.has_of_not_mem k (by decide) (by decide)

/-- The read is at the target now. -/
theorem has_mrd_hoist (h : p.HoistsTo i t) (k : Nat) :
    ((p.hoist i t).wordAt k).has .mrd =
      if k = i then false else if k = t then true else (p.wordAt k).has .mrd := by
  rw [← has_pick_of_mem _ (show Field.mrd ∈ readFields by decide), h.pick_readFields]
  split
  · rw [has_zero]
  · split
    · rw [has_or, has_pick_of_mem _ (by decide), has_pick_of_mem _ (by decide), h.has_mrd, Bool.or_true]
    · rw [has_pick_of_mem _ (by decide)]

/-- The commit is two steps behind the target now. -/
theorem has_iwt_hoist (h : p.HoistsTo i t) (k : Nat) :
    ((p.hoist i t).wordAt k).has .iwt =
      if k = i + 2 then false else if k = t + 2 then true else (p.wordAt k).has .iwt := by
  rw [← has_pick_of_mem _ (show Field.iwt ∈ commitFields by decide), h.pick_commitFields]
  split
  · rw [has_zero]
  · split
    · rw [has_or, has_pick_of_mem _ (by decide), has_pick_of_mem _ (by decide), h.has_iwt, Bool.or_true]
    · rw [has_pick_of_mem _ (by decide)]

end HoistsTo

/-! ## The discipline after a hoist -/

theorem Disciplined.orderly_wordAt {p : Program} (h : p.Disciplined) (k : Nat) : (p.wordAt k).Orderly :=
  (forall_wordAt orderly_zero).2 h.orderly k

/-- The words stay orderly: the source loses all fields of the read, and the target gets them with it. -/
theorem HoistsTo.orderly {p : Program} {i t k : Nat} (h : p.HoistsTo i t) (hk : (p.wordAt k).Orderly) :
    ((p.hoist i t).wordAt k).Orderly := by
  refine ⟨?_, ?_, ?_, ?_⟩
  · rw [h.has_mrd_hoist, h.has_mwt_hoist]
    split
    · simp
    · split
      · next hkt => simp [hkt, h.free_fields.2.1]
      · exact hk.exclusive
  · intro hacc f hf
    have hmem : f ∈ readFields := List.mem_cons_of_mem _ hf
    rw [accessesMemory, h.has_mrd_hoist, h.has_mwt_hoist] at hacc
    rw [← get_pick_of_mem _ hmem, h.pick_readFields]
    split
    · rw [get_zero]
    · next hki =>
      rw [if_neg hki] at hacc
      split
      · -- the target does access memory now
        next hkt =>
        rw [if_pos hkt] at hacc
        simp at hacc
      · next hkt =>
        rw [if_neg hkt] at hacc
        rw [get_pick_of_mem _ hmem]
        exact hk.address hacc f hf
  · intro hiwt
    have hmem : Field.iwa ∈ commitFields := by decide
    rw [h.has_iwt_hoist] at hiwt
    rw [← get_pick_of_mem _ hmem, h.pick_commitFields]
    split
    · rw [get_zero]
    · next hki =>
      rw [if_neg hki] at hiwt
      split
      · -- the step two after the target does commit now
        next hkt =>
        rw [if_pos hkt] at hiwt
        exact absurd hiwt (by simp)
      · next hkt =>
        rw [if_neg hkt] at hiwt
        rw [get_pick_of_mem _ hmem]
        exact hk.register hiwt
  · rw [h.clear_all]
    exact hk.clear_all

/-- Read and commit move together to an odd step, so the timing stays. -/
theorem HoistsTo.timed {p : Program} {i t : Nat} (h : p.HoistsTo i t) (hp : Timed false false false p) :
    Timed false false false (p.hoist i t) := by
  obtain ⟨hodd, h0, h1, hpair⟩ := timed_iff.1 hp
  refine timed_iff.2 ⟨?_, ?_, ?_, ?_⟩
  · intro k hk
    rw [accessesMemory, h.has_mrd_hoist, h.has_mwt_hoist] at hk
    by_cases hkt : k = t
    · rw [hkt]
      exact h.odd
    · -- any other step that accesses memory did so before
      apply hodd k
      rw [if_neg hkt] at hk
      by_cases hki : k = i
      · rw [hki, accessesMemory, h.has_mrd]
        rfl
      · rwa [if_neg hki] at hk
  · rw [h.has_iwt_hoist, if_neg (by omega), if_neg (by omega), h0]
  · -- the target is odd, so its commit is not at step 1
    have ht := h.odd
    have hlt := h.lt
    rw [h.has_iwt_hoist, if_neg (by omega), if_neg (by omega), h1]
  · intro k
    rw [h.has_iwt_hoist, h.has_mrd_hoist, hpair k]
    simp only [Nat.add_right_cancel_iff]

/-- A move keeps a program disciplined. -/
theorem Disciplined.hoist {p : Program} {i t : Nat} (hd : p.Disciplined) (h : p.HoistsTo i t) :
    (p.hoist i t).Disciplined where
  orderly := (forall_wordAt orderly_zero).1 fun k => h.orderly (hd.orderly_wordAt k)
  timed := h.timed hd.timed

/-! ## Loads that are still to be visited -/

/-- The steps of the loads from step `n` on do nothing else. -/
def BareFrom (n : Nat) (p : Program) : Prop :=
  ∀ k, n ≤ k → (p.wordAt k).has .mrd = true → (p.wordAt k).work = 0 ∧ (p.wordAt (k + 2)).work = 0

/-- A hoist leaves the loads after it as they are. -/
theorem BareFrom.hoist {p : Program} {i t : Nat} (hb : p.BareFrom i) (h : p.HoistsTo i t) :
    (p.hoist i t).BareFrom (i + 1) := by
  intro k hk hmrd
  have hlt := h.lt
  rw [h.has_mrd_hoist, if_neg (by omega), if_neg (by omega)] at hmrd
  rw [h.work, h.work]
  exact hb k (by omega) hmrd

/-! ## The pass -/

/-- A visit leaves the program alone where there is no load, or none that has a target. -/
theorem visit_eq_self {p : Program} {i : Nat} (h : p.isLoad i = true → p.hoistTarget i = none) (n : Nat) :
    visit (p, n) i = (p, n) := by
  unfold visit
  dsimp only
  split
  · next hl => rw [h hl]
  · rfl

/-- A visit moves and counts a load that has a target. -/
theorem visit_eq_hoist {p : Program} {i t : Nat} (hl : p.isLoad i = true) (ht : p.hoistTarget i = some t)
    (n : Nat) : visit (p, n) i = (p.hoist i t, n + 1) := by
  unfold visit
  dsimp only
  rw [if_pos hl, ht]

/-- The program and the number of moved loads when the pass gets to step `i`. -/
def scan (p : Program) (i : Nat) : Program × Nat :=
  (List.range' 3 (i - 3)).foldl visit (p, 0)

theorem scan_succ (p : Program) {i : Nat} (hi : 3 ≤ i) : p.scan (i + 1) = visit (p.scan i) i := by
  unfold scan
  rw [show i + 1 - 3 = i - 3 + 1 by omega, List.range'_1_concat, List.foldl_append,
    show 3 + (i - 3) = i by omega]
  rfl

theorem hoistLoads_eq_scan (p : Program) : p.hoistLoads = p.scan (3 + (p.length - 5)) := by
  unfold hoistLoads scan
  rw [Nat.add_sub_cancel_left]

/-- What holds of a program before its first load is visited, and is kept by every visit, holds whenever
the pass gets to a step. -/
theorem scan_induction {P : Nat → Program → Prop} {p : Program} (h0 : P 3 p)
    (hskip : ∀ i q, 3 ≤ i → P i q → (q.isLoad i = true → q.hoistTarget i = none) → P (i + 1) q)
    (hstep : ∀ i t q, 3 ≤ i → P i q → q.isLoad i = true → q.hoistTarget i = some t →
      P (i + 1) (q.hoist i t)) {i : Nat} (hi : 3 ≤ i) :
    P i (p.scan i).1 := by
  obtain ⟨n, rfl⟩ := Nat.exists_eq_add_of_le hi
  clear hi
  induction n with
  | zero => exact h0
  | succ n ih =>
    have hi : 3 ≤ 3 + n := Nat.le_add_right 3 n
    rw [← Nat.add_assoc, scan_succ p hi]
    generalize p.scan (3 + n) = state at ih ⊢
    obtain ⟨q, count⟩ := state
    -- a visit leaves the program as it is or hoists the load
    by_cases hnone : q.isLoad (3 + n) = true → q.hoistTarget (3 + n) = none
    · rw [visit_eq_self hnone]
      exact hskip _ q hi ih hnone
    · obtain ⟨hload, htarget⟩ := Classical.not_imp.1 hnone
      obtain ⟨t, ht⟩ := Option.ne_none_iff_exists'.1 htarget
      rw [visit_eq_hoist hload ht]
      exact hstep _ t q hi ih hload ht

/-- The same for the whole pass, if it does not matter why a load stays or which target it has. The index
says how far the scan has got. -/
theorem hoistLoads_induction {P : Nat → Program → Prop} {p : Program} (h0 : P 3 p)
    (hskip : ∀ i q, P i q → P (i + 1) q)
    (hstep : ∀ i t q, 3 ≤ i → P i q → q.HoistsTo i t → P (i + 1) (q.hoist i t)) :
    P (3 + (p.length - 5)) p.hoistLoads.1 := by
  rw [hoistLoads_eq_scan]
  refine scan_induction h0 ?_ ?_ (Nat.le_add_right 3 _)
  · intro i q _ hq _
    exact hskip i q hq
  · intro i t q hi hq hl ht
    exact hstep i t q hi hq (hoistTarget_eq_some hl ht)

/-- So does the whole pass. -/
theorem Disciplined.hoistLoads {p : Program} (h : p.Disciplined) : p.hoistLoads.1.Disciplined := by
  refine @hoistLoads_induction (fun _ q => q.Disciplined) p h ?_ ?_
  · intro i q hq
    exact hq
  · intro i t q _ hq ht
    exact hq.hoist ht

theorem length_scan (p : Program) {i : Nat} (hi : 3 ≤ i) : (p.scan i).1.length = p.length := by
  refine @scan_induction (fun _ q => q.length = p.length) p rfl ?_ ?_ i hi
  · intro i q _ hq _
    exact hq
  · intro i t q _ hq _ _
    rw [length_hoist, hq]

theorem length_hoistLoads (p : Program) : p.hoistLoads.1.length = p.length := by
  rw [hoistLoads_eq_scan]
  exact length_scan p (Nat.le_add_right 3 _)

/-- Optimising keeps the parity of the length. -/
theorem length_optimize_mod_two (p : Program) : p.optimize.length % 2 = p.length % 2 := by
  unfold optimize
  rw [length_compact_mod_two, length_trickle, length_hoistLoads]

/-- All passes together keep the discipline. -/
theorem Disciplined.optimize {p : Program} (h : p.Disciplined) : p.optimize.Disciplined :=
  h.hoistLoads.trickle.compact

end Program

end Microcode
