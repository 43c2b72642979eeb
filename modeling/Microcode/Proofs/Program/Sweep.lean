import Mathlib.Data.List.Chain
import Mathlib.Data.Multiset.AddSub
import Microcode.Program.Optimize

/-!
# Moving work by exchanges

Moving work before the empty steps is done here in two other ways.

* Sweeps go through the program from its end to its start and exchange each step that may move with an empty
  step before it, until a sweep exchanges nothing (`Program.Sweeps`).
* A schedule goes through the program once. It keeps the empty slots since the last pinned step in a priority
  queue and moves each step that may move to the first of them (`SlotQueue.schedule`).

An exchange of neighbours takes one off the count of `trickle` and changes nothing else about it
(`Program.trickleAfter_exchange`), and a program without a possible exchange is left alone. So the sweeps come to an
end, and to the same program with the same count. In a schedule, the slots in the queue are always neighbours, so
that a queue says no more than their number (`SlotQueue.scheduleFrom_eq`).
-/

namespace Microcode

/-- Whether a step does anything and may be moved. -/
def Step.isMovable (s : Step) : Bool :=
  !s.isNop && !s.isPinned

theorem Step.isMovable_iff {s : Step} : s.isMovable = true ↔ s.isNop = false ∧ s.isPinned = false := by
  simp [isMovable]

namespace Program

/-- The step at an index; a step that does not exist does nothing. -/
def stepAt (p : Program) (i : Nat) : Step :=
  p[i]?.getD .nop

/-- Exchanges the steps at two indices. -/
def swap (p : Program) (i j : Nat) : Program :=
  (p.set i (p.stepAt j)).set j (p.stepAt i)

/-- Whether the step at an index is empty and the next one may be moved. -/
def canExchange (p : Program) (i : Nat) : Bool :=
  (p.stepAt i).isNop && (p.stepAt (i + 1)).isMovable

/-! ## Sweeps -/

/-- Goes from index `i` down to index one, and exchanges a step that may be moved with an empty one before it.
Gives the number of exchanges. -/
def sweepFrom : (i : Nat) → Program → Program × Nat
  | 0, p => (p, 0)
  | i + 1, p =>
    if p.canExchange i then
      let (q, count) := sweepFrom i (p.swap i (i + 1))
      (q, count + 1)
    else sweepFrom i p

/-- A sweep through the whole program. -/
def sweep (p : Program) : Program × Nat :=
  sweepFrom (p.length - 1) p

/-- Sweeps, repeated until one of them exchanges nothing, lead from a program to another one with a number of
exchanges in all. -/
inductive Sweeps : Program → Program → Nat → Prop where
  | done {p q : Program} : p.sweep = (q, 0) → Sweeps p q 0
  | again {p q r : Program} {n m : Nat} : p.sweep = (q, n + 1) → Sweeps q r m → Sweeps p r (n + 1 + m)

theorem stepAt_eq_getElem {p : Program} {i : Nat} (h : i < p.length) : p.stepAt i = p[i] := by
  rw [stepAt, List.getElem?_eq_getElem h]
  rfl

theorem stepAt_append_length (p : Program) (s : Step) (q : Program) : stepAt (p ++ s :: q) p.length = s := by
  simp [stepAt]

/-- Exchanging two steps of a program that is given in parts. -/
theorem swap_append (a b c : Program) (s t : Step) :
    swap (a ++ s :: (b ++ t :: c)) a.length (a.length + 1 + b.length) = a ++ t :: (b ++ s :: c) := by
  have hs : stepAt (a ++ s :: (b ++ t :: c)) a.length = s := stepAt_append_length a s _
  have ht : stepAt (a ++ s :: (b ++ t :: c)) (a.length + 1 + b.length) = t := by
    have h := stepAt_append_length (a ++ s :: b) t c
    simpa [Nat.add_assoc, Nat.add_comm 1] using h
  rw [swap, hs, ht]
  simp [List.set_append_right, Nat.add_assoc, Nat.add_comm 1]

/-- The step behind held empty steps. -/
theorem stepAt_held (settled : Program) (held : Nat) (s : Step) (p : Program) :
    stepAt (settled ++ (List.replicate held .nop ++ s :: p)) (settled.length + held) = s := by
  have h := stepAt_append_length (settled ++ List.replicate held .nop) s p
  rw [List.length_append, List.length_replicate, List.append_assoc] at h
  exact h

/-- Exchanged with the first of the held empty steps, a step is before all of them. -/
theorem swap_held (settled : Program) (held : Nat) (s : Step) (p : Program) :
    swap (settled ++ (List.replicate (held + 1) .nop ++ s :: p)) settled.length (settled.length + (held + 1)) =
      (settled ++ [s]) ++ (List.replicate (held + 1) .nop ++ p) := by
  have h := swap_append settled (List.replicate held .nop) p .nop s
  rw [List.length_replicate, Nat.add_right_comm, Nat.add_assoc] at h
  calc _ = settled ++ s :: (List.replicate held .nop ++ .nop :: p) := h
    _ = _ := by simp [List.replicate_succ']

theorem lt_length_of_isMovable {p : Program} {i : Nat} (h : (p.stepAt i).isMovable = true) : i < p.length := by
  by_contra hge
  rw [stepAt, List.getElem?_eq_none (Nat.le_of_not_lt hge)] at h
  exact absurd h (by decide)

/-- Where an exchange is possible, an empty step stands before a step that may be moved. -/
theorem exists_of_canExchange {p : Program} {i : Nat} (h : p.canExchange i = true) :
    ∃ a s b, p = a ++ .nop :: s :: b ∧ s.isMovable = true ∧ p.swap i (i + 1) = a ++ s :: .nop :: b := by
  obtain ⟨hnop, hmovable⟩ := Bool.and_eq_true_iff.1 h
  have hi : i + 1 < p.length := lt_length_of_isMovable hmovable
  have hsplit : p = p.take i ++ .nop :: p.stepAt (i + 1) :: p.drop (i + 2) := by
    rw [← Step.isNop_iff.1 hnop, stepAt_eq_getElem (Nat.lt_of_succ_lt hi), stepAt_eq_getElem hi,
      ← List.drop_eq_getElem_cons, ← List.drop_eq_getElem_cons, List.take_append_drop]
  have hlength : (p.take i).length = i := List.length_take_of_le (by omega)
  refine ⟨p.take i, p.stepAt (i + 1), p.drop (i + 2), hsplit, hmovable, ?_⟩
  have hswap := swap_append (p.take i) [] (p.drop (i + 2)) .nop (p.stepAt (i + 1))
  rw [List.nil_append, ← hsplit, hlength] at hswap
  exact hswap

/-- An exchange takes one off the count and does not change the result. -/
theorem trickleAfter_exchange (held : Nat) (a b : Program) {s : Step} (hs : s.isMovable = true) :
    trickleAfter held (a ++ .nop :: s :: b) =
      ((trickleAfter held (a ++ s :: .nop :: b)).1, (trickleAfter held (a ++ s :: .nop :: b)).2 + 1) := by
  obtain ⟨hnop, hpinned⟩ := Step.isMovable_iff.1 hs
  induction a generalizing held with
  | nil =>
    have hempty : Step.nop.isNop = true := rfl
    simp [trickleAfter, hnop, hpinned, hempty, Nat.add_assoc]
  | cons t a ih =>
    simp only [List.cons_append, trickleAfter]
    split
    · exact ih (held + 1)
    · split
      · rw [ih 0]
      · rw [ih held]
        simp [Nat.add_right_comm]

/-- A sweep takes its exchanges off the count and does not change the result. -/
theorem trickle_sweepFrom (i : Nat) (p : Program) :
    p.trickle = ((sweepFrom i p).1.trickle.1, (sweepFrom i p).1.trickle.2 + (sweepFrom i p).2) := by
  induction i generalizing p with
  | zero => rfl
  | succ i ih =>
    rw [sweepFrom]
    split
    · next h =>
      obtain ⟨a, s, b, hp, hs, hswap⟩ := exists_of_canExchange h
      have hexchange : p.trickle = ((p.swap i (i + 1)).trickle.1, (p.swap i (i + 1)).trickle.2 + 1) := by
        rw [hswap]
        conv_lhs => rw [hp]
        exact trickleAfter_exchange 0 a b hs
      dsimp only
      rw [hexchange, ih (p.swap i (i + 1)), Nat.add_assoc]
    · exact ih p

/-- A sweep that exchanges nothing has found no possible exchange. -/
theorem canExchange_of_sweepFrom {i : Nat} {p : Program} (h : (sweepFrom i p).2 = 0) :
    (sweepFrom i p).1 = p ∧ ∀ j < i, p.canExchange j = false := by
  induction i with
  | zero => exact ⟨rfl, fun j hj => absurd hj (Nat.not_lt_zero j)⟩
  | succ i ih =>
    rw [sweepFrom] at h ⊢
    split at h
    · exact absurd h (Nat.succ_ne_zero _)
    · next hexchange =>
      rw [if_neg hexchange]
      obtain ⟨hsame, hbelow⟩ := ih h
      refine ⟨hsame, fun j hj => ?_⟩
      rcases Nat.lt_succ_iff_lt_or_eq.1 hj with hlt | rfl
      · exact hbelow j hlt
      · exact Bool.eq_false_iff.2 hexchange

/-- No empty step is directly before a step that may be moved. -/
def Settled (p : Program) : Prop :=
  p.IsChain fun s t => ¬(s.isNop = true ∧ t.isMovable = true)

/-- A sweep that swaps nothing has found everything in its place. -/
theorem settled_of_sweep {p : Program} (h : p.sweep.2 = 0) : p.sweep.1 = p ∧ p.Settled := by
  obtain ⟨hsame, hnone⟩ := canExchange_of_sweepFrom h
  refine ⟨hsame, List.isChain_iff_getElem.2 fun i hi => ?_⟩
  have hexchange := hnone i (by omega)
  rw [canExchange, stepAt_eq_getElem hi, stepAt_eq_getElem (Nat.lt_of_succ_lt hi)] at hexchange
  simpa using hexchange

/-- Held empty steps go back where they were, if nothing behind them may be moved before them. -/
theorem Settled.trickleAfter_eq {p : Program} (hp : p.Settled) (held : Nat)
    (hhead : 0 < held → ∀ s ∈ p.head?, s.isMovable = false) :
    trickleAfter held p = (List.replicate held .nop ++ p, 0) := by
  induction p generalizing held with
  | nil => rw [trickleAfter, List.append_nil]
  | cons s p ih =>
    obtain ⟨hnext, hp⟩ := List.isChain_cons.1 hp
    rw [trickleAfter]
    split
    · next hnop =>
      rw [ih hp (held + 1) fun _ t ht => by simpa [hnop] using hnext t ht, Step.isNop_iff.1 hnop,
        List.replicate_succ', List.append_assoc, List.singleton_append]
    · next hnop =>
      split
      · rw [ih hp 0 fun hlt => absurd hlt (Nat.lt_irrefl 0)]
        rfl
      · next hpinned =>
        -- a step that may be moved is here only if no empty step is held
        have hmovable : s.isMovable = true :=
          Step.isMovable_iff.2 ⟨Bool.eq_false_iff.2 hnop, Bool.eq_false_iff.2 hpinned⟩
        obtain rfl : held = 0 := by
          by_contra hne
          have hfalse := hhead (Nat.pos_of_ne_zero hne) s rfl
          rw [hmovable] at hfalse
          exact Bool.noConfusion hfalse
        rw [ih hp 0 fun hlt => absurd hlt (Nat.lt_irrefl 0)]
        rfl

/-- In a settled program there is nothing to move. -/
theorem Settled.trickle_eq {p : Program} (hp : p.Settled) : p.trickle = (p, 0) :=
  hp.trickleAfter_eq 0 fun hlt => absurd hlt (Nat.lt_irrefl 0)

/-- Sweeps end with what `trickle` gives. -/
theorem Sweeps.trickle_eq {p q : Program} {n : Nat} (h : p.Sweeps q n) : p.trickle = (q, n) := by
  induction h with
  | @done p q hsweep =>
    obtain ⟨hsame, hsettled⟩ := @settled_of_sweep p (by rw [hsweep])
    rw [hsettled.trickle_eq, ← hsame, hsweep]
  | @again p q r n m hsweep _ ih =>
    have htrickle := trickle_sweepFrom (p.length - 1) p
    rw [show sweepFrom (p.length - 1) p = (q, n + 1) from hsweep, ih] at htrickle
    rw [htrickle, Nat.add_comm]

/-- Sweeps come to an end: each of them but the last takes something off the count. -/
theorem sweeps_trickle (p : Program) : p.Sweeps p.trickle.1 p.trickle.2 := by
  obtain ⟨count, hcount⟩ : ∃ count, p.trickle.2 = count := ⟨_, rfl⟩
  -- the induction is on the number of exchanges, which every sweep that is not the last one lowers
  induction count using Nat.strong_induction_on generalizing p with
  | _ count ih =>
    have htrickle := trickle_sweepFrom (p.length - 1) p
    cases hsweep : p.sweep with
    | mk q n =>
      rw [show sweepFrom (p.length - 1) p = (q, n) from hsweep] at htrickle
      cases n with
      | zero =>
        obtain ⟨hsame, hsettled⟩ := @settled_of_sweep p (by rw [hsweep])
        rw [hsettled.trickle_eq]
        refine .done ?_
        rw [hsweep, ← hsame, hsweep]
      | succ n =>
        have hlt : q.trickle.2 < count := by
          rw [← hcount, htrickle]
          dsimp only
          omega
        rw [htrickle]
        dsimp only
        rw [Nat.add_comm]
        exact .again hsweep (ih _ hlt q rfl)

end Program

/-! ## Schedules -/

/-- A priority queue of slots: its operations, what it holds, and that it gives the first slot that it holds. -/
structure SlotQueue (Q : Type*) where
  empty : Q
  push : Nat → Q → Q
  pop? : Q → Option (Nat × Q)
  slots : Q → Multiset Nat
  slots_empty : slots empty = 0
  slots_push : ∀ i free, slots (push i free) = i ::ₘ slots free
  pop?_none : ∀ free, pop? free = none → slots free = 0
  pop?_some : ∀ free i rest, pop? free = some (i, rest) →
    slots free = i ::ₘ slots rest ∧ ∀ j ∈ slots free, i ≤ j

namespace SlotQueue

open Program

variable {Q : Type*} (queue : SlotQueue Q)

/-- Goes through a number of steps from index `i` on, with the empty slots in a queue that a step may be moved to.
Gives the distance moved in all. -/
def scheduleFrom : (count i : Nat) → Q → Program → Program × Nat
  | 0, _, _, p => (p, 0)
  | count + 1, i, free, p =>
    if (p.stepAt i).isNop then scheduleFrom count (i + 1) (queue.push i free) p
    else if (p.stepAt i).isPinned then scheduleFrom count (i + 1) queue.empty p
    else
      match queue.pop? free with
      | none => scheduleFrom count (i + 1) free p
      | some (slot, rest) =>
        let (q, moved) := scheduleFrom count (i + 1) (queue.push i rest) (p.swap slot i)
        (q, moved + (i - slot))

/-- Moves each step to the first empty slot that it may be moved to. -/
def schedule (p : Program) : Program × Nat :=
  queue.scheduleFrom p.length 0 queue.empty p

/-- A queue that holds no slot gives none. -/
theorem pop?_of_slots_zero {free : Q} (h : queue.slots free = 0) : queue.pop? free = none := by
  cases hpop : queue.pop? free with
  | none => rfl
  | some popped =>
    obtain ⟨slot, rest⟩ := popped
    have hslots := (queue.pop?_some free slot rest hpop).1
    rw [h] at hslots
    exact absurd hslots.symm Multiset.cons_ne_zero

/-- A queue that holds neighbouring slots gives the first of them. -/
theorem pop?_of_slots {free : Q} {first count : Nat}
    (h : queue.slots free = (List.range' first (count + 1) : Multiset Nat)) :
    ∃ rest, queue.pop? free = some (first, rest) ∧
      queue.slots rest = (List.range' (first + 1) count : Multiset Nat) := by
  rw [List.range'_succ, ← Multiset.cons_coe] at h
  cases hpop : queue.pop? free with
  | none =>
    rw [queue.pop?_none free hpop] at h
    exact absurd h.symm (Multiset.cons_ne_zero)
  | some popped =>
    obtain ⟨slot, rest⟩ := popped
    obtain ⟨hslots, hmin⟩ := queue.pop?_some free slot rest hpop
    -- the least slot of a range is its first one
    have hslot : slot = first := by
      have hle : slot ≤ first := hmin first (by rw [h]; exact Multiset.mem_cons_self _ _)
      have hge : first ≤ slot := by
        have hmem : slot ∈ first ::ₘ (List.range' (first + 1) count : Multiset Nat) := by
          rw [← h, hslots]
          exact Multiset.mem_cons_self _ _
        simp only [Multiset.mem_cons, Multiset.mem_coe, List.mem_range'_1] at hmem
        omega
      omega
    subst hslot
    refine ⟨rest, rfl, ?_⟩
    rw [h] at hslots
    exact (Multiset.cons_inj_right _).1 hslots.symm

/-- The slot behind neighbouring slots. -/
theorem slots_push_range {free : Q} {first count : Nat}
    (h : queue.slots free = (List.range' first count : Multiset Nat)) :
    queue.slots (queue.push (first + count) free) = (List.range' first (count + 1) : Multiset Nat) := by
  rw [queue.slots_push, h, List.range'_concat, Nat.one_mul, ← Multiset.coe_add, Multiset.coe_singleton,
    ← Multiset.singleton_add, Multiset.add_comm]

/-- The empty slots in the queue are the empty steps that are held: a schedule has settled the steps before them
and has still to go through those behind them. -/
theorem scheduleFrom_eq (settled : Program) (held : Nat) (p : Program) {free : Q}
    (hfree : queue.slots free = (List.range' settled.length held : Multiset Nat)) :
    queue.scheduleFrom p.length (settled.length + held) free (settled ++ (List.replicate held .nop ++ p)) =
      (settled ++ (trickleAfter held p).1, (trickleAfter held p).2) := by
  induction p generalizing settled held free with
  | nil =>
    rw [List.append_nil]
    rfl
  | cons s p ih =>
    rw [List.length_cons, scheduleFrom, stepAt_held, trickleAfter]
    split
    · next hnop =>
      -- one more empty step is held, and the queue holds its slot
      have h := ih settled (held + 1) (queue.slots_push_range hfree)
      rw [List.replicate_succ', List.append_assoc, List.singleton_append] at h
      rw [Step.isNop_iff.1 hnop]
      exact h
    · split
      · have h := @ih (settled ++ (List.replicate held .nop ++ [s])) 0 queue.empty queue.slots_empty
        simp only [List.length_append, List.length_replicate, List.length_singleton, List.replicate_zero,
          List.nil_append, List.append_assoc, List.singleton_append, Nat.add_zero, Nat.add_assoc] at h ⊢
        rw [h]
      · cases held with
        | zero =>
          rw [queue.pop?_of_slots_zero hfree]
          have h := @ih (settled ++ [s]) 0 free (by rw [hfree]; rfl)
          simpa using h
        | succ held =>
          obtain ⟨rest, hpop, hrest⟩ := queue.pop?_of_slots hfree
          -- the first slot is filled, and the slot of the step itself is behind the others
          have hslots := queue.slots_push_range hrest
          have hindex : settled.length + 1 + held = settled.length + (held + 1) := by omega
          have hlength : (settled ++ [s]).length = settled.length + 1 := List.length_append
          rw [hindex] at hslots
          have h := @ih (settled ++ [s]) (held + 1) _ (by rw [hlength]; exact hslots)
          rw [hlength, Nat.add_right_comm] at h
          rw [hpop]
          dsimp only
          rw [swap_held, h, Nat.add_sub_cancel_left, List.append_assoc, List.singleton_append]

/-- A schedule gives what `trickle` gives, whatever the queue is. -/
theorem schedule_eq_trickle (p : Program) : queue.schedule p = p.trickle :=
  queue.scheduleFrom_eq [] 0 p queue.slots_empty

/-- Slots in a list, in any order. -/
def ofList : SlotQueue (List Nat) where
  empty := []
  push i free := i :: free
  pop? free := free.min?.map fun i => (i, free.erase i)
  slots free := free
  slots_empty := rfl
  slots_push _ _ := rfl
  pop?_none free h := by
    rw [Option.map_eq_none_iff, List.min?_eq_none_iff] at h
    rw [h]
    rfl
  pop?_some free i rest h := by
    obtain ⟨j, hmin, hj⟩ := Option.map_eq_some_iff.1 h
    obtain ⟨rfl, rfl⟩ := Prod.mk.inj hj
    obtain ⟨hmem, hle⟩ := List.min?_eq_some_iff.1 hmin
    exact ⟨Multiset.coe_eq_coe.2 (List.perm_cons_erase hmem), hle⟩

end SlotQueue

/-- The steps and coefficients of a program in a table. -/
theorem Table.trickle_ofProgram (p : Program) :
    (Table.ofProgram p).trickle = (Table.ofProgram p.trickle.1, p.trickle.2) := by
  have hsurplus : (Table.ofProgram p).surplus = [] := by
    simp [surplus, ofProgram, Program.words, Program.coefs]
  rw [trickle, steps_ofProgram]
  dsimp only
  rw [withSteps, hsurplus, List.append_nil]
  rfl

/-- **Moving work is sweeping until nothing moves.** For a program in a table, whatever its words and
coefficients are: the scheduled program and the distance moved are those of the table. Sweeps come to
an end, and they can only end with that program, after as many exchanges. -/
theorem trickle_is_repeated_sweep {Q : Type*} (queue : SlotQueue Q) (p : Program) :
    ∃ q n, (Table.ofProgram p).trickle = (Table.ofProgram q, n) ∧ queue.schedule p = (q, n) ∧
      p.Sweeps q n ∧ ∀ q' n', p.Sweeps q' n' → q' = q ∧ n' = n := by
  refine ⟨p.trickle.1, p.trickle.2, Table.trickle_ofProgram p, queue.schedule_eq_trickle p,
    p.sweeps_trickle, ?_⟩
  intro q n h
  rw [h.trickle_eq]
  exact ⟨rfl, rfl⟩

/-- With the slots in a list: a step moves before two empty ones, and the write behind it stays. -/
theorem trickle_is_repeated_sweep_write :
    SlotQueue.ofList.schedule [.nop, .nop, ⟨0, 1⟩, .ofWord (.flags [.mwt])] =
      ([⟨0, 1⟩, .nop, .nop, .ofWord (.flags [.mwt])], 2) ∧
    ∃ q n, (Table.ofProgram [.nop, .nop, ⟨0, 1⟩, .ofWord (.flags [.mwt])]).trickle = (Table.ofProgram q, n) ∧
      SlotQueue.ofList.schedule [.nop, .nop, ⟨0, 1⟩, .ofWord (.flags [.mwt])] = (q, n) ∧
      Program.Sweeps [.nop, .nop, ⟨0, 1⟩, .ofWord (.flags [.mwt])] q n ∧
      ∀ q' n', Program.Sweeps [.nop, .nop, ⟨0, 1⟩, .ofWord (.flags [.mwt])] q' n' → q' = q ∧ n' = n :=
  ⟨by decide, trickle_is_repeated_sweep SlotQueue.ofList _⟩

end Microcode
