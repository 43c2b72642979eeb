import Mathlib.Data.List.Chain
import Microcode.Proofs.Program.Work

/-!
# What the passes conserve

The passes take a program of any words, also of words that no source leads to: with several roles in one
step, with reads at even steps, with bits outside all fields. Whatever they move or drop,

* the work of the program stays the same, in the same order (`working_optimize`);
* no read and no commit is lost or doubled (`countWith_optimize`): a hoist takes one away where it puts one,
  and the other passes move or drop only steps that have none;
* of every run of empty steps at most one is left (`isChain_compact`).
-/

namespace Microcode

/-- Whether a step has a read, a write or a commit can be seen from what it shows to the timing. -/
theorem Step.has_eq_any_pin? {f : Field} (hf : f ∈ [Field.mwt, .mrd, .iwt]) (s : Step) :
    s.word.has f = s.pin?.any (·.word.has f) := by
  unfold pin?
  split
  · rfl
  · next hpinned =>
    obtain ⟨hmwt, hmrd, hiwt⟩ := has_eq_false_of_not_isPinned (Bool.eq_false_iff.2 hpinned)
    simp only [List.mem_cons, List.not_mem_nil, or_false] at hf
    rcases hf with rfl | rfl | rfl
    · exact hmwt
    · exact hmrd
    · exact hiwt

namespace Program

/-- The number of steps that have a field. -/
def countWith (f : Field) (p : Program) : Nat :=
  p.countP (·.word.has f)

/-! ## Hoisting -/

/-- A field that goes from one step to another is counted once before and after. -/
theorem countWith_eq_of_moved {p q : Program} {f : Field} {i t : Nat} (hlength : q.length = p.length)
    (ht : t < p.length) (hsource : (p.wordAt i).has f = true) (htarget : (p.wordAt t).has f = false)
    (hmoved : ∀ k, (q.wordAt k).has f =
      if k = i then false else if k = t then true else (p.wordAt k).has f) :
    q.countWith f = p.countWith f := by
  have hi : i < p.length := lt_length_of_has hsource
  have hne : t ≠ i := by
    rintro rfl
    rw [hsource] at htarget
    exact Bool.noConfusion htarget
  -- seen as a list of flags, one entry is set and another one is taken back
  have hflags : q.map (·.word.has f) = ((p.map (·.word.has f)).set t true).set i false := by
    apply List.ext_getElem
    · simp [hlength]
    · intro k hk hk'
      have hkp : k < p.length := by simpa using hk'
      have hk := hmoved k
      rw [wordAt_eq_getElem hkp, wordAt_eq_getElem (hlength ▸ hkp)] at hk
      simp only [List.getElem_map, List.getElem_set, hk, eq_comm]
  have hcount : ∀ r : Program, r.countWith f = (r.map (·.word.has f)).count true := by
    intro r
    rw [List.count, List.countP_map]
    simp [countWith, Function.comp_def]
  rw [wordAt_eq_getElem hi] at hsource
  rw [wordAt_eq_getElem ht] at htarget
  rw [hcount, hcount, hflags, List.count_set (by simpa using hi), List.count_set (by simpa using ht)]
  simp [List.getElem_set_ne hne, hsource, htarget]

/-- The read of a load goes to a step without one, and its commit to a step without one. -/
theorem HoistsTo.countWith_hoist {p : Program} {i t : Nat} (h : p.HoistsTo i t) {f : Field}
    (hf : f ∈ [Field.mrd, .iwt]) : (p.hoist i t).countWith f = p.countWith f := by
  obtain ⟨hmrd, -, hiwt⟩ := h.free_fields
  have hlength := h.length
  have hlt := h.lt
  simp only [List.mem_cons, List.not_mem_nil, or_false] at hf
  rcases hf with rfl | rfl
  · exact countWith_eq_of_moved (length_hoist p i t) (by omega) h.has_mrd hmrd h.has_mrd_hoist
  · exact countWith_eq_of_moved (length_hoist p i t) (by omega) h.has_iwt hiwt h.has_iwt_hoist

/-- Hoisting neither loses a read or a commit nor makes one. -/
theorem countWith_hoistLoads (p : Program) {f : Field} (hf : f ∈ [Field.mrd, .iwt]) :
    p.hoistLoads.1.countWith f = p.countWith f := by
  refine @hoistLoads_induction (fun _ q => q.countWith f = p.countWith f) p rfl ?_ ?_
  · intro i q hq
    exact hq
  · intro i t q _ hq ht
    rw [ht.countWith_hoist hf, hq]

/-! ## Moving work -/

/-- Moving work leaves every pinned step where it is, and no other step has a read or a commit. -/
theorem countWith_trickle (p : Program) {f : Field} (hf : f ∈ [Field.mwt, .mrd, .iwt]) :
    p.trickle.1.countWith f = p.countWith f := by
  have hcount : ∀ q : Program, q.countWith f = (q.map Step.pin?).countP (·.any (·.word.has f)) := by
    intro q
    rw [List.countP_map, countWith]
    congr 1
    funext s
    exact Step.has_eq_any_pin? hf s
  rw [hcount, map_pin?_trickle, ← hcount]

/-! ## Dropping empty steps -/

/-- Only empty steps are dropped. -/
theorem filter_compact (p : Program) : p.compact.filter (!·.isNop) = p.filter (!·.isNop) := by
  induction p using compact.induct with
  | case1 s t p hn ih =>
    rw [compact, if_pos hn, ih]
    rw [Bool.and_eq_true] at hn
    simp [hn.1, hn.2]
  | case2 s t p hn ih =>
    rw [compact, if_neg hn]
    show List.filter _ ([s] ++ compact (t :: p)) = List.filter _ ([s] ++ t :: p)
    rw [List.filter_append, ih, List.filter_append]
  | case3 p hp => rw [compact.eq_2 p hp]

/-- A step with a field is not empty. -/
theorem countWith_filter (f : Field) (p : Program) : countWith f (p.filter (!·.isNop)) = p.countWith f := by
  rw [countWith, List.countP_filter, countWith]
  congr 1
  funext s
  cases hnop : s.isNop
  · simp
  · rw [Step.isNop_iff.1 hnop, show Step.nop.word.has f = false from Word.has_zero f]
    rfl

/-- Dropped steps have no fields, so none is lost with them. -/
theorem countWith_compact (f : Field) (p : Program) : p.compact.countWith f = p.countWith f := by
  rw [← countWith_filter, filter_compact, countWith_filter]

/-- No two neighbours are left empty. -/
theorem isChain_compact (p : Program) :
    p.compact.IsChain fun s t => ¬(s.isNop = true ∧ t.isNop = true) := by
  induction p using compact.induct with
  | case1 s t p hn ih =>
    rw [compact, if_pos hn]
    exact ih
  | case2 s t p hn ih =>
    rw [compact, if_neg hn, List.isChain_cons]
    refine ⟨?_, ih⟩
    rintro u hu ⟨hs, hunop⟩
    -- the next step is not empty, so it is not dropped either
    have ht : t.isNop = false := by rwa [hs, Bool.true_and, Bool.not_eq_true] at hn
    rw [compact_cons ht, List.head?_cons, Option.mem_some_iff] at hu
    rw [← hu, ht] at hunop
    exact Bool.noConfusion hunop
  | case3 p hp =>
    rw [compact.eq_2 p hp]
    cases p with
    | nil => exact .nil
    | cons s p =>
      cases p with
      | nil => exact .singleton s
      | cons t p => exact (hp s t p rfl).elim

/-! ## All passes -/

/-- No pass loses a read or a commit or makes one. -/
theorem countWith_optimize (p : Program) {f : Field} (hf : f ∈ [Field.mrd, .iwt]) :
    p.optimize.countWith f = p.countWith f := by
  unfold optimize
  rw [countWith_compact, countWith_trickle _ (List.mem_cons_of_mem _ hf), countWith_hoistLoads _ hf]

/-- A program does not get longer. -/
theorem length_optimize_le (p : Program) : p.optimize.length ≤ p.length := by
  unfold optimize
  calc (compact p.hoistLoads.1.trickle.1).length
      ≤ p.hoistLoads.1.trickle.1.length := (compact_sublist _).length_le
    _ = p.length := by rw [length_trickle, length_hoistLoads]

end Program

/-- **Optimising neither loses, doubles nor reorders work.** A table of words and coefficients of one length,
whatever they are, is accepted. The work of its steps is the same before and after, in the same order, and so
is the number of reads and that of commits. The program does not get longer, its length stays even or odd,
and no two neighbouring steps are empty. -/
theorem optimize_conserves {table : Table} (h : table.words.length = table.coefs.length) :
    ∃ q : Program, table.optimize = .ok (Table.ofProgram q) ∧
      q.working = table.steps.working ∧
      q.countWith .mrd = table.steps.countWith .mrd ∧ q.countWith .iwt = table.steps.countWith .iwt ∧
      q.length ≤ table.words.length ∧ q.length % 2 = table.words.length % 2 ∧
      q.IsChain fun s t => ¬(s.isNop = true ∧ t.isNop = true) := by
  have hlength : table.steps.length = table.words.length := by
    rw [Table.steps, List.length_zipWith, ← h, Nat.min_self]
  refine ⟨table.steps.optimize, ?_, Program.working_optimize _, Program.countWith_optimize _ (by decide),
    Program.countWith_optimize _ (by decide), ?_, ?_, Program.isChain_compact _⟩
  · rw [Table.optimize, Table.program, if_pos h]
    rfl
  · rw [← hlength]
    exact Program.length_optimize_le _
  · rw [← hlength]
    exact Program.length_optimize_mod_two _

/-- A table with a stray bit, a load that starts at an even step together with work, and a coefficient without
a word. -/
def mixedTable : Table :=
  ⟨[0, 0, ⟨1⟩, 0, .flags [.mrd, .zero], 0, (Word.flags [.iwt]).set .iwa 4, 0, 0, 0, 0],
    [0, 0, 0, 0, 0, 0, 0, 0, 0, 0, 3]⟩

/-- The load and the coefficient move, and four of the eleven steps are dropped. -/
theorem optimize_conserves_mixed :
    mixedTable.words.length = mixedTable.coefs.length ∧
    mixedTable.steps.optimize.length = 7 ∧
    ∃ q : Program, mixedTable.optimize = .ok (Table.ofProgram q) ∧
      q.working = mixedTable.steps.working ∧
      q.countWith .mrd = mixedTable.steps.countWith .mrd ∧ q.countWith .iwt = mixedTable.steps.countWith .iwt ∧
      q.length ≤ mixedTable.words.length ∧ q.length % 2 = mixedTable.words.length % 2 ∧
      q.IsChain fun s t => ¬(s.isNop = true ∧ t.isNop = true) :=
  ⟨rfl, by decide, optimize_conserves rfl⟩

end Microcode
