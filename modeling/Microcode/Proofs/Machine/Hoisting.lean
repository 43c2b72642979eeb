import Mathlib.Tactic.Set
import Microcode.Proofs.Machine.Basic

/-!
# Hoisting a load on the machine

The run of a hoisted program is followed beside the run of the program itself, step by step. `Shadow`
says how the two states differ before step `k`, for a load that is moved from step `i` to step `t`:

* up to step `t` they are equal; then the sample of the read is in flight for two steps in the hoisted
  run only;
* from step `t + 3` to step `i + 2` the register has its new value in the hoisted run only;
* while it does, the sample of the other run comes into flight, and its commit makes the states equal.

The conditions on a target are what makes each step keep this relation (`Shadow.step`).
-/

namespace Microcode

open Word

namespace Word

/-- Without its commit, a word has its read and its work. -/
theorem clear_commitFields_eq (w : Word) : w.clear commitFields = w.pick readFields ||| w.work := by
  have h := pick_or_clear (w.clear commitFields) readFields
  rw [pick_clear_of_disjoint _ readFields_disjoint_commitFields, clear_comm] at h
  exact h.symm

/-- What is read depends on the fields of the read only. -/
theorem request?_congr {v w : Word} (h : v.pick readFields = w.pick readFields) :
    v.request? = w.request? := by
  unfold request?
  rw [has_eq_of_pick_eq h (by decide), h]

/-- What is committed depends on the fields of the commit only. -/
theorem commit?_congr {v w : Word} (h : v.pick commitFields = w.pick commitFields) :
    v.commit? = w.commit? := by
  unfold commit?
  simp only [@has_eq_of_pick_eq v w _ h .iwt (by decide), @get_eq_of_pick_eq v w _ h .iwa (by decide)]

end Word

namespace Program

/-- The register that the load at step `i` commits to. -/
def loadRegister (p : Program) (i : Nat) : Fin memsCount :=
  ⟨(p.wordAt (i + 2)).get .iwa, (p.wordAt (i + 2)).get_lt .iwa⟩

/-! ## What a hoist does to the parts that the machine sees -/

namespace HoistsTo

variable {p : Program} {i t : Nat}

/-- A move changes nothing in what the steps do besides loading. -/
theorem action (hd : p.Disciplined) (h : p.HoistsTo i t) (k : Nat) :
    ((p.hoist i t).wordAt k).action = (p.wordAt k).action := by
  unfold Word.action
  rw [h.has_mwt_hoist, h.work]
  split
  · next hw =>
    -- neither the source nor the target of the read writes memory
    have hki : k ≠ i := by
      rintro rfl
      exact (hd.orderly_wordAt k).exclusive ⟨h.has_mrd, hw⟩
    have hkt : k ≠ t := by
      rintro rfl
      rw [h.free_fields.2.1] at hw
      exact Bool.noConfusion hw
    rw [clear_commitFields_eq, clear_commitFields_eq, h.work, h.pick_readFields, if_neg hki, if_neg hkt]
  · rfl

/-- A move takes the read from its step to the target. -/
theorem request? (hd : p.Disciplined) (h : p.HoistsTo i t) (k : Nat) :
    ((p.hoist i t).wordAt k).request? =
      if k = i then none else if k = t then (p.wordAt i).request? else (p.wordAt k).request? := by
  have hpick := h.pick_readFields k
  split
  · next hki =>
    rw [if_pos hki] at hpick
    rw [@request?_congr _ 0 (by rw [hpick, pick_zero]), request?_zero]
  · next hki =>
    rw [if_neg hki] at hpick
    split
    · next hkt =>
      rw [if_pos hkt, (hd.orderly_wordAt t).pick_readFields h.free_access, zero_or] at hpick
      exact request?_congr hpick
    · next hkt =>
      rw [if_neg hkt] at hpick
      exact request?_congr hpick

/-- A move takes the commit along, two steps behind the read. -/
theorem commit? (hd : p.Disciplined) (h : p.HoistsTo i t) (k : Nat) :
    ((p.hoist i t).wordAt k).commit? =
      if k = i + 2 then none
      else if k = t + 2 then (p.wordAt (i + 2)).commit? else (p.wordAt k).commit? := by
  have hpick := h.pick_commitFields k
  split
  · next hki =>
    rw [if_pos hki] at hpick
    rw [@commit?_congr _ 0 (by rw [hpick, pick_zero]), commit?_zero]
  · next hki =>
    rw [if_neg hki] at hpick
    split
    · next hkt =>
      rw [if_pos hkt, (hd.orderly_wordAt (t + 2)).pick_commitFields h.free_fields.2.2, zero_or] at hpick
      exact commit?_congr hpick
    · next hkt =>
      rw [if_neg hkt] at hpick
      exact commit?_congr hpick

/-- A load that is moved commits to its register. -/
theorem commit?_source (h : p.HoistsTo i t) : (p.wordAt (i + 2)).commit? = some (p.loadRegister i) := by
  unfold Word.commit?
  rw [if_pos h.has_iwt]
  rfl

theorem request?_source (h : p.HoistsTo i t) :
    (p.wordAt i).request? = some ((p.wordAt i).pick readFields) := by
  unfold Word.request?
  rw [if_pos h.has_mrd]

/-- No step up to the commit uses the register. -/
theorem not_uses (h : p.HoistsTo i t) {k : Nat} (htk : t ≤ k) (hki : k < i + 2) :
    (p.wordAt k).uses (p.loadRegister i) = false := by
  rcases Nat.lt_trichotomy k i with hlt | heq | hgt
  · exact (h.not_bars htk hlt).1
  · rw [heq]
    exact h.read
  · rw [show k = i + 1 by omega]
    exact h.between

/-- No step between the target and the commit reads the register of the load. -/
theorem input?_ne (hb : p.BareFrom i) (h : p.HoistsTo i t) {k : Nat} (htk : t ≤ k) (hki : k ≤ i + 2) :
    (p.wordAt k).input? ≠ some (p.loadRegister i) := by
  rcases Nat.lt_or_ge k (i + 2) with hlt | hge
  · exact input?_ne_of_not_uses (h.not_uses htk hlt)
  · rw [show k = i + 2 by omega, input?_eq_none (hb i (Nat.le_refl i) h.has_mrd).2]
    simp

/-- The source of a hoist is later than the target by two steps at least. -/
theorem add_two_le (hd : p.Disciplined) (h : p.HoistsTo i t) : t + 2 ≤ i := by
  have hodd := (timed_iff.1 hd.timed).1 i (by rw [accessesMemory, h.has_mrd]; rfl)
  have := h.odd
  have := h.lt
  simp at hodd
  omega

end HoistsTo

end Program

/-! ## Two runs side by side -/

namespace Datapath

open Program

variable {Mem Adr Dat Val : Type*} {d : Datapath Mem Adr Dat Val} {p : Program} {i t k : Nat}

/-- How the state `s'` of the hoisted run differs from the state `s` before step `k`, where `v` is the
value of the load. -/
structure Shadow (d : Datapath Mem Adr Dat Val) (p : Program) (i t : Nat) (v : Val) (k : Nat)
    (s s' : MachineState Mem Adr Dat Val) : Prop where
  core : s'.core = s.core
  mems : s'.mems = if t + 2 < k ∧ k ≤ i + 2 then Function.update s.mems (p.loadRegister i) v else s.mems
  first : s'.first = if k = t + 1 then some v else if k = i + 1 then none else s.first
  second : s'.second = if k = t + 2 then some v else if k = i + 2 then none else s.second
  first_source : k = i + 1 → s.first = some v
  second_source : k = i + 2 → s.second = some v
  sample : t < k → k ≤ i → d.sample ((p.wordAt i).pick readFields) s.core = v

theorem map_update_of_ne {o : Option (Fin memsCount)} {r : Fin memsCount} (h : o ≠ some r)
    (mems : Fin memsCount → Val) (v : Val) : o.map (Function.update mems r v) = o.map mems := by
  cases o with
  | none => rfl
  | some q =>
    have hq : q ≠ r := fun hc => h (by rw [hc])
    rw [Option.map_some, Option.map_some, Function.update_of_ne hq]

/-- Commits to different registers can be exchanged. -/
theorem store_update_of_ne {o : Option (Fin memsCount)} {r : Fin memsCount} (h : o ≠ some r)
    (x : Option Val) (mems : Fin memsCount → Val) (v : Val) :
    store o x (Function.update mems r v) = Function.update (store o x mems) r v := by
  cases o with
  | none => rfl
  | some q =>
    cases x with
    | none => rfl
    | some x =>
      have hq : q ≠ r := fun hc => h (by rw [hc])
      rw [store_some, store_some, Function.update_comm hq]

/-- A sample stays the same over a step that writes no memory and, if the read adds the address
register, does not load it. -/
theorem sample_coreAfter {q : Word} {x : Step} (hw : x.word.has .mwt = false)
    (ha : q.has .adreb = true → x.word.has .adrl = false) (s : MachineState Mem Adr Dat Val) :
    d.sample q (d.coreAfter x s) = d.sample q s.core := by
  have hmem : (d.coreAfter x s).mem = s.core.mem := by
    apply d.mem_act
    rw [has_action_of_not_mem (by decide) (by decide), hw]
  unfold sample
  rw [hmem]
  split
  · next hq =>
    have hadr : (d.coreAfter x s).adr = s.core.adr := by
      apply d.adr_act
      rw [has_action_of_not_mem (by decide) (by decide), ha hq]
    rw [hadr]
  · rfl

namespace Shadow

variable {v : Val} {s s' : MachineState Mem Adr Dat Val}

/-- The datapath does the same in both runs: it sees the same of the words, and the one register that
differs is not fetched. -/
theorem coreAfter_eq (hd : p.Disciplined) (hb : p.BareFrom i) (h : p.HoistsTo i t)
    (hs : Shadow d p i t v k s s') (hk : k < p.length) (hk' : k < (p.hoist i t).length) :
    d.coreAfter (p.hoist i t)[k] s' = d.coreAfter p[k] s := by
  have hin : p[k].word.input?.map s'.mems = p[k].word.input?.map s.mems := by
    rw [hs.mems, ← wordAt_eq_getElem hk]
    split
    · exact map_update_of_ne (h.input?_ne hb (by omega) (by omega)) _ _
    · rfl
  have hwork : (p.hoist i t)[k].word.work = p[k].word.work := by
    rw [← wordAt_eq_getElem hk, ← wordAt_eq_getElem hk', h.work]
  have haction : (p.hoist i t)[k].word.action = p[k].word.action := by
    rw [← wordAt_eq_getElem hk, ← wordAt_eq_getElem hk', h.action hd]
  unfold coreAfter
  rw [haction, getElem_hoist_coef hk, input?_congr hwork, hs.core, hin]

/-- What the registers hold after step `k`. -/
theorem mems_step (hd : p.Disciplined) (h : p.HoistsTo i t) (hs : Shadow d p i t v k s s')
    (hk : k < p.length) (hk' : k < (p.hoist i t).length) :
    (d.step (p.hoist i t)[k] s').mems =
      if t + 2 < k + 1 ∧ k + 1 ≤ i + 2 then
        Function.update (d.step p[k] s).mems (p.loadRegister i) v
      else (d.step p[k] s).mems := by
  have hti := h.add_two_le hd
  show store (p.hoist i t)[k].word.commit? s'.second s'.mems =
    if t + 2 < k + 1 ∧ k + 1 ≤ i + 2 then
      Function.update (store p[k].word.commit? s.second s.mems) (p.loadRegister i) v
    else store p[k].word.commit? s.second s.mems
  rw [← wordAt_eq_getElem hk, ← wordAt_eq_getElem hk', h.commit? hd, hs.mems, hs.second]
  by_cases hkt : k = t + 2
  · -- the hoisted run commits, the other one has nothing to commit here
    have hnone : (p.wordAt (t + 2)).commit? = none := by
      unfold Word.commit?
      rw [if_neg (by rw [h.free_fields.2.2]; exact Bool.noConfusion)]
    rw [hkt, if_neg (by omega), if_pos rfl, if_pos rfl, if_neg (by omega), if_pos (by omega),
      h.commit?_source, hnone]
    rfl
  · by_cases hki : k = i + 2
    · -- the other run commits, after which the registers agree
      rw [if_pos hki, if_neg hkt, if_pos hki, if_pos (show t + 2 < k ∧ k ≤ i + 2 by omega),
        if_neg (show ¬ (t + 2 < k + 1 ∧ k + 1 ≤ i + 2) by omega), hs.second_source hki, hki,
        h.commit?_source]
      rfl
    · rw [if_neg hki, if_neg hkt, if_neg hkt, if_neg hki]
      by_cases hin : t + 2 < k ∧ k ≤ i + 2
      · -- whatever is committed in between goes to another register
        have hne := commit?_ne_of_not_uses (h.not_uses (k := k) (by omega) (by omega))
        rw [if_pos hin, if_pos (by omega), store_update_of_ne hne]
      · rw [if_neg hin, if_neg (by omega)]

/-- What is in flight after step `k`. -/
theorem first_step (hd : p.Disciplined) (hb : p.BareFrom i) (h : p.HoistsTo i t)
    (hs : Shadow d p i t v k s s') (hk : k < p.length) (hk' : k < (p.hoist i t).length)
    (hv : k = t → d.sample ((p.wordAt i).pick readFields) (d.coreAfter p[k] s) = v) :
    (d.step (p.hoist i t)[k] s').first =
      if k + 1 = t + 1 then some v else if k + 1 = i + 1 then none else (d.step p[k] s).first := by
  have hlt := h.lt
  show (p.hoist i t)[k].word.request?.map (fun q => d.sample q (d.coreAfter (p.hoist i t)[k] s')) =
    if k + 1 = t + 1 then some v
    else if k + 1 = i + 1 then none
    else p[k].word.request?.map fun q => d.sample q (d.coreAfter p[k] s)
  rw [hs.coreAfter_eq hd hb h hk hk', ← wordAt_eq_getElem hk', h.request? hd]
  by_cases hkt : k = t
  · -- only the hoisted run reads here, and what it reads is the value of the load
    rw [if_neg (by omega), if_pos hkt, if_pos (by omega), h.request?_source, Option.map_some, hv hkt]
  · by_cases hki : k = i
    · -- only the other run reads here
      rw [if_pos hki, if_neg (by omega), if_pos (by omega)]
      rfl
    · rw [if_neg hki, if_neg hkt, if_neg (by omega), if_neg (by omega), wordAt_eq_getElem hk]

/-- The sample of the load does not change until the load is reached. -/
theorem sample_step (h : p.HoistsTo i t) (hs : Shadow d p i t v k s s') (hk : k < p.length)
    (htk : t < k) (hki : k < i) :
    d.sample ((p.wordAt i).pick readFields) (d.coreAfter p[k] s) = v := by
  obtain ⟨-, hw, ha⟩ := h.not_bars (Nat.le_of_lt htk) hki
  rw [wordAt_eq_getElem hk] at hw ha
  rw [sample_coreAfter hw, hs.sample htk (Nat.le_of_lt hki)]
  intro hq
  rw [has_pick_of_mem _ (by decide)] at hq
  exact ha hq

/-- The load itself samples the same value. -/
theorem sample_source (hb : p.BareFrom i) (h : p.HoistsTo i t)
    (hs : Shadow d p i t v i s s') (hi : i < p.length) :
    d.sample ((p.wordAt i).pick readFields) (d.coreAfter p[i] s) = v := by
  -- the step of the load does nothing else, in particular nothing to memory or the address register
  have hbare := (hb i (Nat.le_refl i) h.has_mrd).1
  have hnone : ∀ f, f ∉ readFields → f ∉ commitFields → p[i].word.has f = false := by
    intro f hr hc
    rw [← wordAt_eq_getElem hi, ← has_work hr hc, hbare, has_zero]
  rw [sample_coreAfter (hnone .mwt (by decide) (by decide)), hs.sample h.lt (Nat.le_refl i)]
  intro _
  exact hnone .adrl (by decide) (by decide)

/-- Every step keeps the relation. -/
theorem step (hd : p.Disciplined) (hb : p.BareFrom i) (h : p.HoistsTo i t)
    (hs : Shadow d p i t v k s s') (hk : k < p.length) (hk' : k < (p.hoist i t).length)
    (hv : k = t → d.sample ((p.wordAt i).pick readFields) (d.coreAfter p[k] s) = v) :
    Shadow d p i t v (k + 1) (d.step p[k] s) (d.step (p.hoist i t)[k] s') where
  core := hs.coreAfter_eq hd hb h hk hk'
  mems := hs.mems_step hd h hk hk'
  first := hs.first_step hd hb h hk hk' hv
  second := by
    show s'.first = if k + 1 = t + 2 then some v else if k + 1 = i + 2 then none else s.first
    rw [hs.first]
    simp only [Nat.add_right_cancel_iff, show t + 2 = t + 1 + 1 from rfl,
      show i + 2 = i + 1 + 1 from rfl]
  first_source := by
    intro hki
    obtain rfl : k = i := by omega
    show p[k].word.request?.map (fun q => d.sample q (d.coreAfter p[k] s)) = some v
    rw [← wordAt_eq_getElem hk, h.request?_source, Option.map_some, hs.sample_source hb h hk]
  second_source := by
    intro hki
    exact hs.first_source (by omega)
  sample := by
    intro htk hki
    by_cases hkt : k = t
    · exact hv hkt
    · exact hs.sample_step h hk (by omega) (by omega)

end Shadow

/-- A hoist does not change what a program does. -/
theorem run_hoist (hd : p.Disciplined) (hb : p.BareFrom i) (h : p.HoistsTo i t)
    (s : MachineState Mem Adr Dat Val) : d.run (p.hoist i t) s = d.run p s := by
  have hlen := h.length
  have hlt := h.lt
  have ht : t < p.length := by omega
  -- the value of the load, sampled at the target
  set v := d.sample ((p.wordAt i).pick readFields) (d.coreAfter p[t] (d.run (p.take t) s)) with hv
  have hshadow : ∀ k, k ≤ p.length →
      Shadow d p i t v k (d.run (p.take k) s) (d.run ((p.hoist i t).take k) s) := by
    intro k
    induction k with
    | zero =>
      intro _
      refine ⟨rfl, ?_, ?_, ?_, ?_, ?_, ?_⟩
      · rw [if_neg (by omega)]
        rfl
      · rw [if_neg (by omega), if_neg (by omega)]
        rfl
      · rw [if_neg (by omega), if_neg (by omega)]
        rfl
      · omega
      · omega
      · omega
    | succ k ih =>
      intro hk
      -- `v` was chosen so that the step at the target samples it
      have hk' : k < (p.hoist i t).length := by rw [length_hoist]; omega
      rw [d.run_take_succ hk, d.run_take_succ hk']
      refine (ih (by omega)).step hd hb h hk hk' ?_
      rintro rfl
      exact hv.symm
  -- at the end both commits are past, and the relation is equality
  have hend := hshadow p.length (Nat.le_refl _)
  rw [List.take_length, List.take_of_length_le (Nat.le_of_eq (length_hoist p i t))] at hend
  have hmems := hend.mems
  have hfirst := hend.first
  have hsecond := hend.second
  rw [if_neg (by omega)] at hmems
  rw [if_neg (by omega), if_neg (by omega)] at hfirst hsecond
  exact MachineState.ext hend.core hmems hfirst hsecond

end Datapath

/-- The pass does not change what a program does. -/
theorem Datapath.run_hoistLoads {Mem Adr Dat Val : Type*} (d : Datapath Mem Adr Dat Val) {p : Program}
    (hd : p.Disciplined) (hb : p.BareFrom 3) (s : MachineState Mem Adr Dat Val) :
    d.run p.hoistLoads.1 s = d.run p s := by
  have hpass := @Program.hoistLoads_induction
    (fun i q => q.Disciplined ∧ q.BareFrom i ∧ d.run q s = d.run p s) p ⟨hd, hb, rfl⟩ ?_ ?_
  · exact hpass.2.2
  · rintro i q ⟨hq, hbq, hrun⟩
    exact ⟨hq, fun k hk => hbq k (by omega), hrun⟩
  · rintro i t q - ⟨hq, hbq, hrun⟩ ht
    refine ⟨hq.hoist ht, hbq.hoist ht, ?_⟩
    rw [Datapath.run_hoist hq hbq ht, hrun]

end Microcode
