import Microcode.Proofs.Program.Hoisting

/-!
# The work of a program

The work of a step is what is left of it without the fields of reads and commits, which hoisting may
move. The passes move work and drop steps without it, but they neither lose nor reorder any
(`working_optimize`).
-/

namespace Microcode

/-- A step without the fields of reads and commits. -/
def Step.work (s : Step) : Step :=
  ⟨s.word.work, s.coef⟩

@[simp] theorem Step.work_nop : Step.nop.work = .nop := by
  rw [work, show nop.word = 0 from rfl, Word.work_zero]
  rfl

namespace Program

/-- The work of a program in its order, without the steps that have none. -/
def working (p : Program) : Program :=
  (p.map Step.work).filter (!·.isNop)

@[simp] theorem working_nil : working [] = [] := rfl

/-- The work of two parts is done one after the other. -/
theorem working_append (p q : Program) : (p ++ q).working = p.working ++ q.working := by
  simp [working]

theorem working_cons (s : Step) (p : Program) : working (s :: p) = working [s] ++ p.working :=
  working_append [s] p

@[simp] theorem working_nop : working [Step.nop] = [] := by
  simp [working]

theorem working_singleton {s : Step} (h : s.work ≠ .nop) : working [s] = [s.work] := by
  have hs : s.work.isNop = false := by
    rw [← Bool.not_eq_true, Step.isNop_iff]
    exact h
  simp [working, hs]

@[simp] theorem working_replicate_nop (n : Nat) : working (List.replicate n .nop) = [] := by
  induction n with
  | zero => rfl
  | succ n ih => rw [List.replicate_succ, working_cons, working_nop, ih, List.nil_append]

/-- Where there is work, there is a step that does it, after the steps that do the work before. -/
theorem exists_eq_append_of_working {p before after : Program} {w : Step}
    (h : p.working = before ++ w :: after) :
    ∃ (earlier : Program) (s : Step) (later : Program),
      p = earlier ++ s :: later ∧ s.work = w ∧ earlier.working = before := by
  -- in the list of all steps there may be a gap without work before the step
  obtain ⟨l, r, hp, hl, hr⟩ := List.filter_eq_append_iff.1 h
  obtain ⟨gap, rest, rfl, hgap, -, -⟩ := List.filter_eq_cons_iff.1 hr
  rw [← List.append_assoc] at hp
  obtain ⟨earlier, q, rfl, hearlier, hq⟩ := List.map_eq_append_iff.1 hp
  obtain ⟨s, later, rfl, hs, -⟩ := List.map_eq_cons_iff.1 hq
  refine ⟨earlier, s, later, rfl, hs, ?_⟩
  have hnone : gap.filter (!·.isNop) = [] := List.filter_eq_nil_iff.2 hgap
  rw [working, hearlier, List.filter_append, hl, hnone, List.append_nil]

/-! ## The passes -/

/-- A hoist moves fields of reads and commits only. -/
theorem HoistsTo.map_work {p : Program} {i t : Nat} (h : p.HoistsTo i t) :
    (p.hoist i t).map Step.work = p.map Step.work := by
  apply List.ext_getElem
  · rw [List.length_map, List.length_map, length_hoist]
  · intro k hk hk'
    rw [List.length_map] at hk hk'
    rw [List.getElem_map, List.getElem_map]
    have hword := h.work k
    rw [wordAt_eq_getElem hk, wordAt_eq_getElem hk'] at hword
    exact Step.ext hword (getElem_hoist_coef hk' hk)

/-- Loads are not work: hoisting them leaves the work alone. -/
theorem working_hoistLoads (p : Program) : p.hoistLoads.1.working = p.working := by
  refine @hoistLoads_induction (fun _ q => q.working = p.working) p rfl ?_ ?_
  · intro i q hq
    exact hq
  · intro i t q _ hq ht
    rw [working, ht.map_work]
    exact hq

/-- Work moves over empty steps only. -/
theorem working_trickleAfter (held : Nat) (p : Program) :
    (trickleAfter held p).1.working = p.working := by
  induction p generalizing held with
  | nil => exact working_replicate_nop held
  | cons s p ih =>
    rw [trickleAfter]
    split
    · next hn => rw [ih, Step.isNop_iff.1 hn, working_cons, working_nop, List.nil_append]
    · split
      · dsimp only
        rw [working_append, working_replicate_nop, List.nil_append, working_cons, ih, ← working_cons]
      · dsimp only
        rw [working_cons, ih, ← working_cons]

/-- Dropped steps do no work. -/
theorem working_compact (p : Program) : p.compact.working = p.working := by
  induction p using compact.induct with
  | case1 s t p hn ih =>
    rw [compact, if_pos hn, ih]
    rw [Bool.and_eq_true, Step.isNop_iff, Step.isNop_iff] at hn
    rw [hn.1, hn.2, working_cons, working_cons Step.nop p, working_nop]
    rfl
  | case2 s t p hn ih =>
    rw [compact, if_neg hn, working_cons, ih, ← working_cons]
  | case3 p hp => rw [compact.eq_2 p hp]

/-- Optimising neither loses nor reorders work. -/
theorem working_optimize (p : Program) : p.optimize.working = p.working := by
  unfold optimize trickle
  rw [working_compact, working_trickleAfter, working_hoistLoads]

end Program

end Microcode
