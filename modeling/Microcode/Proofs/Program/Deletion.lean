import Microcode.Proofs.Program.Conservation

/-!
# Dropping empty steps by deletions

Pairs of empty steps are dropped here in two other ways.

* A scan goes from the last step to the first one and deletes two neighbours whenever both are empty
  (`Program.deleteFrom`).
* A program is split into its runs of empty steps, and of each run only the remainder of its length by two is
  left (`Runs.reduced`).

Deleting a pair changes nothing about `compact` (`Program.compact_append_pair`), and a program without a pair is
left alone (`Program.compact_eq_self`), so every way that ends without a pair ends with the same program.

`Program.place` says where a step goes that does something: `compact` treats what is before such a step and
what is behind it apart (`Program.compact_append_cons`).
-/

namespace Microcode

namespace Program

/-! ## What a deletion leaves alone -/

/-- A program with less than two steps. -/
theorem eq_nil_or_singleton {p : Program} (h : ∀ (s t : Step) (q : List Step), p = s :: t :: q → False) :
    p = [] ∨ ∃ s, p = [s] := by
  cases p with
  | nil => exact .inl rfl
  | cons s p =>
    cases p with
    | nil => exact .inr ⟨s, rfl⟩
    | cons t p => exact (h s t p rfl).elim

/-- A step that does something parts the program. -/
theorem compact_append_cons {s : Step} (hs : s.isNop = false) (a b : Program) :
    compact (a ++ s :: b) = a.compact ++ s :: b.compact := by
  induction a using compact.induct with
  | case1 t u a hn ih =>
    rw [List.cons_append, List.cons_append, compact, if_pos hn, compact, if_pos hn, ih]
  | case2 t u a hn ih =>
    rw [List.cons_append, List.cons_append, compact, if_neg hn, compact, if_neg hn, ← List.cons_append, ih,
      List.cons_append]
  | case3 a ha =>
    rcases eq_nil_or_singleton ha with rfl | ⟨t, rfl⟩
    · exact compact_cons hs b
    · have hn : ¬(t.isNop && s.isNop) = true := by
        rw [hs, Bool.and_false]
        exact Bool.false_ne_true
      show compact (t :: s :: b) = t :: s :: b.compact
      rw [compact, if_neg hn, compact_cons hs]

/-- Deleting two empty neighbours does not change the result. -/
theorem compact_append_pair (a b : Program) : compact (a ++ .nop :: .nop :: b) = compact (a ++ b) := by
  induction a using compact.induct with
  | case1 t u a hn ih =>
    rw [List.cons_append, List.cons_append, List.cons_append, List.cons_append, compact, if_pos hn, compact,
      if_pos hn, ih]
  | case2 t u a hn ih =>
    rw [List.cons_append, List.cons_append, List.cons_append, List.cons_append, compact, if_neg hn, compact,
      if_neg hn, ← List.cons_append, ih, List.cons_append]
  | case3 a ha =>
    rcases eq_nil_or_singleton ha with rfl | ⟨t, rfl⟩
    · rfl
    · show compact (t :: .nop :: .nop :: b) = compact (t :: b)
      cases ht : t.isNop with
      | false =>
        rw [compact_cons ht, compact_cons ht]
        rfl
      | true =>
        -- the pair is the step and the first of the two, and the second one takes its place
        rw [Step.isNop_iff.1 ht]
        rfl

/-- A program without two empty neighbours is left alone. -/
theorem compact_eq_self {p : Program} (h : p.IsChain fun s t => ¬(s.isNop = true ∧ t.isNop = true)) :
    p.compact = p := by
  induction p using compact.induct with
  | case1 s t p hn ih =>
    rw [Bool.and_eq_true] at hn
    exact absurd hn (List.isChain_cons_cons.1 h).1
  | case2 s t p hn ih => rw [compact, if_neg hn, ih (List.isChain_cons_cons.1 h).2]
  | case3 p hp => rw [compact.eq_2 p hp]

/-- Of a run of empty steps at most one is left. -/
theorem compact_replicate (n : Nat) : compact (List.replicate n .nop) = List.replicate (n % 2) .nop := by
  induction n using Nat.twoStepInduction with
  | zero => rfl
  | one => rfl
  | more n ih _ =>
    rw [Nat.add_mod_right, ← ih]
    rfl

/-- One pass leaves no pair behind. -/
theorem compact_compact (p : Program) : p.compact.compact = p.compact :=
  compact_eq_self (isChain_compact p)

/-- The steps that are gone are those that are counted. -/
theorem length_compact_add_dropCount (p : Program) : p.compact.length + p.dropCount = p.length :=
  Nat.add_sub_of_le (compact_sublist p).length_le

/-! ## Deleting from the end -/

/-- Whether there are two empty steps, at an index and behind it. -/
def emptyPairAt (p : Program) (i : Nat) : Bool :=
  p[i]?.any (·.isNop) && p[i + 1]?.any (·.isNop)

/-- Deletes the steps at an index and behind it. -/
def deletePair (p : Program) (i : Nat) : Program :=
  (p.eraseIdx (i + 1)).eraseIdx i

/-- Goes from index `i` down to index one, and deletes a step and the one before it if both are empty. Gives the
number of deleted steps. -/
def deleteFrom : (i : Nat) → Program → Program × Nat
  | 0, p => (p, 0)
  | i + 1, p =>
    if p.emptyPairAt i then
      let (q, count) := deleteFrom i (p.deletePair i)
      (q, count + 2)
    else deleteFrom i p

/-- Deletes empty neighbours from the last step to the first one. -/
def deleteBackward (p : Program) : Program × Nat :=
  deleteFrom (p.length - 1) p

theorem deletePair_append (a b : Program) (s t : Step) : deletePair (a ++ s :: t :: b) a.length = a ++ b := by
  simp [deletePair, List.eraseIdx_append_of_length_le]

/-- Where two empty neighbours are deleted, what is before them and what is behind them is left. -/
theorem exists_of_emptyPairAt {p : Program} {i : Nat} (h : p.emptyPairAt i = true) :
    ∃ a b, p = a ++ .nop :: .nop :: b ∧ a.length = i ∧ p.deletePair i = a ++ b := by
  simp only [emptyPairAt, Bool.and_eq_true, Option.any_eq_true, Step.isNop_iff] at h
  obtain ⟨⟨s, hs, rfl⟩, t, ht, rfl⟩ := h
  obtain ⟨hi, hfirst⟩ := List.getElem?_eq_some_iff.1 hs
  obtain ⟨hi', hsecond⟩ := List.getElem?_eq_some_iff.1 ht
  have hsplit : p = p.take i ++ .nop :: .nop :: p.drop (i + 2) := by
    conv_lhs => rw [← List.take_append_drop i p, List.drop_eq_getElem_cons hi, hfirst,
      List.drop_eq_getElem_cons hi', hsecond]
  have hlength : (p.take i).length = i := List.length_take_of_le (Nat.le_of_lt hi)
  refine ⟨p.take i, p.drop (i + 2), hsplit, hlength, ?_⟩
  have hdelete := deletePair_append (p.take i) (p.drop (i + 2)) .nop .nop
  rw [← hsplit, hlength] at hdelete
  exact hdelete

/-- A scan does not change the result, and it counts what it deletes. -/
theorem compact_deleteFrom (i : Nat) (p : Program) :
    (deleteFrom i p).1.compact = p.compact ∧ (deleteFrom i p).1.length + (deleteFrom i p).2 = p.length := by
  induction i generalizing p with
  | zero => exact ⟨rfl, rfl⟩
  | succ i ih =>
    rw [deleteFrom]
    split
    · next h =>
      obtain ⟨a, b, rfl, -, hdelete⟩ := exists_of_emptyPairAt h
      obtain ⟨hcompact, hlength⟩ := ih (a ++ b)
      dsimp only
      rw [hdelete, hcompact, compact_append_pair]
      refine ⟨rfl, ?_⟩
      simp only [List.length_append, List.length_cons] at hlength ⊢
      omega
    · exact ih p

/-- A scan leaves no empty neighbours, if there are none from its start on. -/
theorem emptyPairAt_deleteFrom {i : Nat} {p : Program} (h : ∀ j, i ≤ j → p.emptyPairAt j = false) :
    ∀ j, (deleteFrom i p).1.emptyPairAt j = false := by
  induction i generalizing p with
  | zero => exact fun j => h j (Nat.zero_le j)
  | succ i ih =>
    rw [deleteFrom]
    split
    · next hpair =>
      obtain ⟨a, b, rfl, hlength, hdelete⟩ := exists_of_emptyPairAt hpair
      dsimp only
      rw [hdelete]
      apply ih
      intro j hj
      -- the steps from the deleted ones on have been looked at, two indices higher
      have hshift : ∀ k, i ≤ k → (a ++ .nop :: .nop :: b)[k + 2]? = (a ++ b)[k]? := by
        intro k hk
        rw [List.getElem?_append_right (by omega), List.getElem?_append_right (by omega),
          show k + 2 - a.length = k - a.length + 1 + 1 by omega, List.getElem?_cons_succ,
          List.getElem?_cons_succ]
      have hbelow := h (j + 2) (by omega)
      rwa [emptyPairAt, hshift j hj, Nat.add_right_comm, hshift (j + 1) (by omega)] at hbelow
    · next hpair =>
      apply ih
      intro j hj
      rcases Nat.eq_or_lt_of_le hj with rfl | hlt
      · exact Bool.eq_false_iff.2 hpair
      · exact h j hlt

/-- A program without empty neighbours at any index. -/
theorem isChain_of_emptyPairAt {p : Program} (h : ∀ j, p.emptyPairAt j = false) :
    p.IsChain fun s t => ¬(s.isNop = true ∧ t.isNop = true) := by
  rw [List.isChain_iff_getElem]
  rintro j hj ⟨hs, ht⟩
  have hnone := h j
  rw [emptyPairAt, List.getElem?_eq_getElem (Nat.lt_of_succ_lt hj), List.getElem?_eq_getElem hj,
    Option.any_some, Option.any_some, hs, ht] at hnone
  exact Bool.noConfusion hnone

/-- Deleting from the end gives what `compact` gives, and counts the dropped steps. -/
theorem deleteBackward_eq (p : Program) : p.deleteBackward = (p.compact, p.dropCount) := by
  obtain ⟨hcompact, hlength⟩ := compact_deleteFrom (p.length - 1) p
  have hstart : ∀ j, p.length - 1 ≤ j → p.emptyPairAt j = false := by
    intro j hj
    rw [emptyPairAt, List.getElem?_eq_none (show p.length ≤ j + 1 by omega), Option.any_none, Bool.and_false]
  have hresult : (deleteFrom (p.length - 1) p).1 = p.compact := by
    rw [← hcompact, compact_eq_self (isChain_of_emptyPairAt (emptyPairAt_deleteFrom hstart))]
  refine Prod.ext hresult ?_
  have hdropped := length_compact_add_dropCount p
  rw [hresult] at hlength
  show (deleteFrom (p.length - 1) p).2 = p.dropCount
  omega

/-- Dropped steps come in pairs. -/
theorem dropCount_mod_two (p : Program) : p.dropCount % 2 = 0 := by
  have hdropped := length_compact_add_dropCount p
  have hparity := length_compact_mod_two p
  omega

/-! ## Where the steps go -/

/-- The index that the step at an index has after the pairs are dropped. -/
def place (p : Program) (k : Nat) : Nat :=
  (compact (p.take k)).length

/-- There is a step at an index, and it does something. -/
def BusyAt (p : Program) (k : Nat) : Prop :=
  ∃ s, p[k]? = some s ∧ s.isNop = false

/-- The steps of one program that do something are those of the other: `place` gives their indices there. They
keep their order and the parity of their indices, and a distance of two steps. -/
structure Keeps (p q : Program) (place : Nat → Nat) : Prop where
  step : ∀ k s, p[k]? = some s → s.isNop = false → q[place k]? = some s
  onto : ∀ m s, q[m]? = some s → s.isNop = false → ∃ k, p[k]? = some s ∧ place k = m
  order : ∀ j k, j < k → p.BusyAt j → p.BusyAt k → place j < place k
  parity : ∀ k, p.BusyAt k → place k % 2 = k % 2
  distance : ∀ k, p.BusyAt k → p.BusyAt (k + 2) → place (k + 2) = place k + 2

/-- A program around a step that does something. -/
theorem BusyAt.exists_eq_append {p : Program} {k : Nat} (h : p.BusyAt k) :
    ∃ a s b, p = a ++ s :: b ∧ a.length = k ∧ s.isNop = false := by
  obtain ⟨s, hs, hbusy⟩ := h
  obtain ⟨hk, hget⟩ := List.getElem?_eq_some_iff.1 hs
  refine ⟨p.take k, s, p.drop (k + 1), ?_, List.length_take_of_le (Nat.le_of_lt hk), hbusy⟩
  rw [← hget, ← List.drop_eq_getElem_cons hk, List.take_append_drop]

theorem place_append (a b : Program) : place (a ++ b) a.length = a.compact.length := by
  rw [place, List.take_left]

/-- A step that is left was somewhere before. -/
theorem exists_place_eq {p : Program} {m : Nat} {s : Step} (h : p.compact[m]? = some s) :
    ∃ k, p[k]? = some s ∧ p.place k = m := by
  induction p using compact.induct generalizing m with
  | case1 t u p hn ih =>
    rw [compact, if_pos hn] at h
    obtain ⟨k, hk, hplace⟩ := ih h
    refine ⟨k + 2, hk, ?_⟩
    rw [place, List.take_succ_cons, List.take_succ_cons, compact, if_pos hn]
    exact hplace
  | case2 t u p hn ih =>
    rw [compact, if_neg hn] at h
    cases m with
    | zero => exact ⟨0, h, rfl⟩
    | succ m =>
      obtain ⟨k, hk, hplace⟩ := ih h
      refine ⟨k + 1, hk, ?_⟩
      rw [← hplace, place, place, List.take_succ_cons]
      cases k with
      | zero => rfl
      | succ k => rw [List.take_succ_cons, compact, if_neg hn, List.length_cons]
  | case3 p hp =>
    -- with less than two steps nothing is dropped
    rw [compact.eq_2 p hp] at h
    refine ⟨m, h, ?_⟩
    have hm : m < p.length := (List.getElem?_eq_some_iff.1 h).1
    rcases eq_nil_or_singleton hp with rfl | ⟨t, rfl⟩
    · exact absurd hm (Nat.not_lt_zero m)
    · obtain rfl : m = 0 := by simpa using hm
      rfl

/-- The steps before a step that does something, up to another one. -/
theorem BusyAt.append_left {a b : Program} {k : Nat} (h : (a ++ b).BusyAt k) (hk : k < a.length) :
    a.BusyAt k := by
  obtain ⟨s, hs, hbusy⟩ := h
  rw [List.getElem?_append_left hk] at hs
  exact ⟨s, hs, hbusy⟩

/-- What is left between two steps that do something is what `compact` leaves of the steps between them. -/
theorem exists_place_eq_add {p : Program} {j k : Nat} (hjk : j < k) (hj : p.BusyAt j) (hk : p.BusyAt k) :
    ∃ between : Program, j + 1 + between.length = k ∧ p.place k = p.place j + 1 + between.compact.length := by
  obtain ⟨c, t, d, rfl, rfl, -⟩ := hk.exists_eq_append
  obtain ⟨a, s, b, rfl, rfl, hs⟩ := (hj.append_left hjk).exists_eq_append
  refine ⟨b, ?_, ?_⟩
  · rw [List.length_append, List.length_cons]
    omega
  · rw [place_append, compact_append_cons hs, List.append_assoc, place_append, List.length_append,
      List.length_cons]
    omega

theorem keeps_compact (p : Program) : p.Keeps p.compact p.place where
  step k s hs hbusy := by
    obtain ⟨a, t, b, rfl, rfl, ht⟩ := BusyAt.exists_eq_append ⟨s, hs, hbusy⟩
    obtain rfl : t = s := by simpa using hs
    rw [place_append, compact_append_cons ht]
    simp
  onto _ _ hs _ := exists_place_eq hs
  order j k hjk hj hk := by
    obtain ⟨between, -, hplace⟩ := exists_place_eq_add hjk hj hk
    omega
  parity k hk := by
    obtain ⟨a, s, b, rfl, rfl, -⟩ := hk.exists_eq_append
    rw [place_append, length_compact_mod_two]
  distance k hk hk2 := by
    obtain ⟨between, hlength, hplace⟩ := exists_place_eq_add (show k < k + 2 by omega) hk hk2
    -- a single step between them is not dropped
    obtain ⟨t, rfl⟩ := List.length_eq_one_iff.1 (show between.length = 1 by omega)
    rw [hplace]
    rfl

end Program

/-! ## Runs of empty steps -/

/-- A program by its runs of empty steps. -/
structure Runs where
  /-- The steps that do something, each with the number of empty steps right before it. -/
  busy : List (Nat × { s : Step // s.isNop = false })
  /-- The number of empty steps at the end. -/
  last : Nat

namespace Runs

open Program

/-- The steps of one run and of the step behind it. -/
def part (run : Nat × { s : Step // s.isNop = false }) : Program :=
  List.replicate run.1 .nop ++ [run.2.val]

/-- The program that has the given runs. -/
def program (r : Runs) : Program :=
  r.busy.flatMap part ++ List.replicate r.last .nop

/-- Of each run, the remainder of its length by two. -/
def reduced (r : Runs) : Runs :=
  ⟨r.busy.map fun run => (run.1 % 2, run.2), r.last % 2⟩

/-- Every program has runs. -/
theorem exists_program_eq (p : Program) : ∃ r : Runs, r.program = p := by
  induction p with
  | nil => exact ⟨⟨[], 0⟩, rfl⟩
  | cons s p ih =>
    obtain ⟨⟨busy, last⟩, rfl⟩ := ih
    cases hs : s.isNop with
    | false => exact ⟨⟨(0, ⟨s, hs⟩) :: busy, last⟩, rfl⟩
    | true =>
      -- an empty step makes the first run longer
      rw [Step.isNop_iff.1 hs]
      cases busy with
      | nil => exact ⟨⟨[], last + 1⟩, rfl⟩
      | cons run busy => exact ⟨⟨(run.1 + 1, run.2) :: busy, last⟩, rfl⟩

/-- Each run of a program becomes the remainder of its length by two. -/
theorem compact_program (r : Runs) : r.program.compact = r.reduced.program := by
  obtain ⟨busy, last⟩ := r
  induction busy with
  | nil => exact compact_replicate last
  | cons run busy ih =>
    obtain ⟨n, s, hs⟩ := run
    have hprogram : ∀ n, program ⟨(n, ⟨s, hs⟩) :: busy, last⟩ =
        List.replicate n .nop ++ s :: program ⟨busy, last⟩ := by
      intro n
      simp [program, part]
    rw [hprogram, compact_append_cons hs, compact_replicate, ih]
    simp [program, part, reduced]

end Runs

/-! ## Tables -/

/-- A table of a program is compacted with its program. If nothing is dropped, it stays as it is. -/
theorem Table.compact_eq {t : Table} (h : t.words.length = t.coefs.length) :
    t.compact = (ofProgram t.steps.compact, t.steps.dropCount) := by
  unfold compact
  dsimp only
  split
  · next hcount =>
    have hlength := t.steps.length_compact_add_dropCount
    have hsame : t.steps.compact = t.steps := (Program.compact_sublist _).eq_of_length (by omega)
    rw [hsame, ofProgram_steps h, hcount]
  · rfl

/-- **Dropping empty steps is deleting pairs of them from the end.** Take a table of words and coefficients of one
length, whatever they are. The compacted program and the count are those of deleting empty neighbours from the
last step to the first one, and each run of empty steps becomes the remainder of its length by two. The count is
the number of steps that are gone, and it is even. The steps that do something keep their order, the parity of
their indices and a distance of two steps, and to compact a second time changes nothing. -/
theorem compact_is_backward_deletion {table : Table} (h : table.words.length = table.coefs.length) :
    ∃ (q : Program) (n : Nat), table.compact = (Table.ofProgram q, n) ∧
      table.steps.deleteBackward = (q, n) ∧
      (∃ r : Runs, r.program = table.steps) ∧ (∀ r : Runs, r.program = table.steps → q = r.reduced.program) ∧
      q.length + n = table.words.length ∧ n % 2 = 0 ∧
      (∃ place, table.steps.Keeps q place) ∧
      (Table.ofProgram q).compact = (Table.ofProgram q, 0) := by
  refine ⟨table.steps.compact, table.steps.dropCount, Table.compact_eq h, Program.deleteBackward_eq _,
    Runs.exists_program_eq _, ?_, ?_, Program.dropCount_mod_two _, ⟨_, Program.keeps_compact _⟩, ?_⟩
  · intro r hr
    rw [← hr, Runs.compact_program]
  · rw [Program.length_compact_add_dropCount, Table.steps, List.length_zipWith, ← h, Nat.min_self]
  · have hagain : table.steps.compact.dropCount = 0 := by
      rw [Program.dropCount, Program.compact_compact, Nat.sub_self]
    rw [Table.compact, Table.steps_ofProgram, hagain]
    rfl

/-- Runs of three, two, one and three empty steps, and a step that has nothing but a coefficient. -/
def paddedTable : Table :=
  ⟨[0, 0, 0, 0, 0, 0, .flags [.zero], 0, .flags [.twt], 0, 0, 0], [0, 0, 0, 5, 0, 0, 0, 0, 0, 0, 0, 0]⟩

/-- Six of the twelve steps are dropped. -/
theorem compact_is_backward_deletion_padded :
    paddedTable.words.length = paddedTable.coefs.length ∧
    paddedTable.compact = (⟨[0, 0, .flags [.zero], 0, .flags [.twt], 0], [0, 5, 0, 0, 0, 0]⟩, 6) ∧
    ∃ (q : Program) (n : Nat), paddedTable.compact = (Table.ofProgram q, n) ∧
      paddedTable.steps.deleteBackward = (q, n) ∧
      (∃ r : Runs, r.program = paddedTable.steps) ∧
      (∀ r : Runs, r.program = paddedTable.steps → q = r.reduced.program) ∧
      q.length + n = paddedTable.words.length ∧ n % 2 = 0 ∧
      (∃ place, paddedTable.steps.Keeps q place) ∧
      (Table.ofProgram q).compact = (Table.ofProgram q, 0) :=
  ⟨rfl, by decide, compact_is_backward_deletion rfl⟩

end Microcode
