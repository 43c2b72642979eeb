import Microcode.Program.Optimize
import Microcode.Proofs.Word.Fields

/-!
# The discipline of memory accesses

Memory is accessed at odd steps only, and what is read at a step is committed exactly two steps later.
A program keeps this discipline if

* each of its words is `Orderly`: it reads or writes memory but not both, and the fields of an access or
  of a commit are empty where there is none;
* it is `Timed`: one scan that remembers the parity of the index and the two reads in flight finds every
  access at an odd step and every commit where a read is due.

`timed_iff` says the second by index. Moving work and dropping empty steps keep the discipline
(`Disciplined.trickle`, `Disciplined.compact`).
-/

namespace Microcode

/-! ## Words -/

namespace Word

/-- The fields that describe the address and the format of a memory access. -/
def addressFields : List Field := [.table, .nxadr, .adreb, .masa, .nofl]

/-- Whether a step reads or writes memory. -/
def accessesMemory (w : Word) : Bool :=
  w.has .mrd || w.has .mwt

/-- A word that has the fields of an access or of a commit only where there is one, and no bit outside
all fields. -/
structure Orderly (w : Word) : Prop where
  exclusive : ¬ (w.has .mrd = true ∧ w.has .mwt = true)
  address : w.accessesMemory = false → ∀ f ∈ addressFields, w.get f = 0
  register : w.has .iwt = false → w.get .iwa = 0
  clear_all : w.clear Field.all = 0

theorem orderly_zero : (0 : Word).Orderly where
  exclusive := by simp
  address := by simp
  register := by simp
  clear_all := by simp

/-- An orderly word that accesses no memory has nothing for a hoisted read to collide with. -/
theorem Orderly.pick_readFields {w : Word} (h : w.Orderly) (ha : w.accessesMemory = false) :
    w.pick readFields = 0 := by
  apply pick_eq_zero
  intro f hf
  have hmrd : w.get .mrd = 0 := by
    rw [accessesMemory, Bool.or_eq_false_iff] at ha
    exact has_eq_false_iff.1 ha.1
  rcases List.mem_cons.1 hf with rfl | hf
  · exact hmrd
  · exact h.address ha f hf

/-- Where nothing is committed there is no register either. -/
theorem Orderly.pick_commitFields {w : Word} (h : w.Orderly) (hi : w.has .iwt = false) :
    w.pick commitFields = 0 := by
  apply pick_eq_zero
  intro f hf
  rcases List.mem_cons.1 hf with rfl | hf
  · exact has_eq_false_iff.1 hi
  · rw [List.mem_singleton.1 hf]
    exact h.register hi

end Word

/-! ## Pinned steps -/

namespace Step

/-- What a step shows of itself to the timing: itself if it is pinned. -/
def pin? (s : Step) : Option Step :=
  if s.isPinned then some s else none

@[simp] theorem pin?_nop : nop.pin? = none := rfl

theorem pin?_eq_none {s : Step} (h : s.isPinned = false) : s.pin? = none := by
  simp [pin?, h]

/-- A step that is not pinned neither accesses memory nor commits. -/
theorem has_eq_false_of_not_isPinned {s : Step} (h : s.isPinned = false) :
    s.word.has .mwt = false ∧ s.word.has .mrd = false ∧ s.word.has .iwt = false := by
  simpa [isPinned, and_assoc] using h

/-- Steps that show the same to the timing access memory and commit alike. -/
theorem has_eq_of_pin?_eq {s t : Step} (h : s.pin? = t.pin?) :
    s.word.accessesMemory = t.word.accessesMemory ∧ s.word.has .iwt = t.word.has .iwt ∧
      s.word.has .mrd = t.word.has .mrd := by
  cases hs : s.isPinned <;> cases ht : t.isPinned <;> simp only [pin?, hs, ht] at h
  · obtain ⟨hsw, hsr, hsi⟩ := has_eq_false_of_not_isPinned hs
    obtain ⟨htw, htr, hti⟩ := has_eq_false_of_not_isPinned ht
    simp [Word.accessesMemory, hsw, hsr, hsi, htw, htr, hti]
  · exact absurd h (by simp)
  · exact absurd h (by simp)
  · rw [show s = t by simpa using h]
    exact ⟨rfl, rfl, rfl⟩

end Step

/-! ## Words by index -/

namespace Program

@[simp] theorem wordAt_nil (k : Nat) : wordAt [] k = 0 := rfl

@[simp] theorem wordAt_cons_zero (s : Step) (p : Program) : wordAt (s :: p) 0 = s.word := rfl

@[simp] theorem wordAt_cons_succ (s : Step) (p : Program) (k : Nat) :
    wordAt (s :: p) (k + 1) = wordAt p k := rfl

/-- A step that does not exist has an empty word. -/
theorem wordAt_of_length_le {p : Program} {k : Nat} (h : p.length ≤ k) : p.wordAt k = 0 := by
  rw [wordAt, List.getElem?_eq_none h]
  rfl

theorem wordAt_eq_getElem {p : Program} {k : Nat} (h : k < p.length) : p.wordAt k = p[k].word := by
  rw [wordAt, List.getElem?_eq_getElem h]
  rfl

/-- A step with a field exists. -/
theorem lt_length_of_has {p : Program} {k : Nat} {f : Field} (h : (p.wordAt k).has f = true) :
    k < p.length := by
  apply Nat.lt_of_not_le
  intro hle
  rw [wordAt_of_length_le hle, Word.has_zero] at h
  exact Bool.false_ne_true h

/-- A property of the empty word and of every step holds of the word at every index. -/
theorem forall_wordAt {P : Word → Prop} (h0 : P 0) {p : Program} :
    (∀ k, P (p.wordAt k)) ↔ ∀ s ∈ p, P s.word := by
  constructor
  · intro h s hs
    obtain ⟨k, hk, rfl⟩ := List.mem_iff_getElem.1 hs
    rw [← wordAt_eq_getElem hk]
    exact h k
  · intro h k
    rcases Nat.lt_or_ge k p.length with hk | hk
    · rw [wordAt_eq_getElem hk]
      exact h _ (List.getElem_mem hk)
    · rw [wordAt_of_length_le hk]
      exact h0

/-! ## Timing -/

/-- Scans a program that starts at an odd or even index with up to two reads in flight: `second` is due
now, `first` one step later. Every access has to stand at an odd index, a step commits exactly if a read
is due, and no read is in flight at the end. -/
def Timed : (odd second first : Bool) → Program → Prop
  | _, second, first, [] => second = false ∧ first = false
  | odd, second, first, s :: p =>
    (s.word.accessesMemory = true → odd = true) ∧ s.word.has .iwt = second ∧
      Timed (!odd) first (s.word.has .mrd) p

theorem Timed.cons {odd second first read : Bool} {s : Step} {p : Program}
    (ha : s.word.accessesMemory = true → odd = true) (hi : s.word.has .iwt = second)
    (hr : s.word.has .mrd = read) (hp : Timed (!odd) first read p) :
    Timed odd second first (s :: p) := by
  subst hr
  exact ⟨ha, hi, hp⟩

/-- Timing by index. -/
theorem timed_iff {odd second first : Bool} {p : Program} :
    Timed odd second first p ↔
      (∀ k, (p.wordAt k).accessesMemory = true → (k + odd.toNat) % 2 = 1) ∧
      (p.wordAt 0).has .iwt = second ∧ (p.wordAt 1).has .iwt = first ∧
      ∀ k, (p.wordAt (k + 2)).has .iwt = (p.wordAt k).has .mrd := by
  -- taking a step off turns the parity round and lets the reads in flight come nearer
  induction p generalizing odd second first with
  | nil =>
    simp [Timed, Word.accessesMemory]
  | cons s p ih =>
    rw [Timed, ih]
    constructor
    · rintro ⟨hs, hi, hodd, hfirst, hmrd, hpair⟩
      refine ⟨?_, hi, hfirst, ?_⟩
      · intro k hk
        cases k with
        | zero => simp [hs hk]
        | succ k =>
          have := hodd k hk
          cases odd <;> simp at this ⊢ <;> omega
      · intro k
        cases k with
        | zero => exact hmrd
        | succ k => exact hpair k
    · rintro ⟨hodd, hi, hfirst, hpair⟩
      refine ⟨?_, hi, ?_, hfirst, hpair 0, fun k => hpair (k + 1)⟩
      · intro hs
        have := hodd 0 hs
        cases odd <;> simp at this ⊢
      · intro k hk
        have := hodd (k + 1) hk
        cases odd <;> simp at this ⊢ <;> omega

/-- Memory is accessed at odd steps. -/
theorem Timed.odd {p : Program} (h : Timed false false false p) {k : Nat}
    (hk : (p.wordAt k).has .mrd = true ∨ (p.wordAt k).has .mwt = true) : k % 2 = 1 := by
  have hacc : (p.wordAt k).accessesMemory = true := by
    rw [Word.accessesMemory, Bool.or_eq_true]
    exact hk
  exact (timed_iff.1 h).1 k hacc

/-- What is committed was read two steps before. -/
theorem Timed.commit {p : Program} (h : Timed false false false p) {k : Nat}
    (hk : (p.wordAt k).has .iwt = true) : 2 ≤ k ∧ (p.wordAt (k - 2)).has .mrd = true := by
  obtain ⟨-, h0, h1, hpair⟩ := timed_iff.1 h
  -- the first two steps commit nothing, so the step of the read exists
  rcases k with _ | _ | k
  · rw [h0] at hk
    exact Bool.noConfusion hk
  · rw [h1] at hk
    exact Bool.noConfusion hk
  · rw [hpair k] at hk
    exact ⟨by omega, hk⟩

/-- A program whose words are orderly and whose accesses and commits are in time. -/
structure Disciplined (p : Program) : Prop where
  orderly : ∀ s ∈ p, s.word.Orderly
  timed : Timed false false false p

/-! ## Moving work -/

/-- Moving work leaves every pinned step where it is. -/
theorem map_pin?_trickleAfter (held : Nat) (p : Program) :
    (trickleAfter held p).1.map Step.pin? = List.replicate held none ++ p.map Step.pin? := by
  induction p generalizing held with
  | nil => simp [trickleAfter]
  | cons s p ih =>
    rw [trickleAfter]
    by_cases hn : s.isNop = true
    · rw [if_pos hn, ih, Step.isNop_iff.1 hn, List.map_cons, Step.pin?_nop, List.replicate_succ']
      simp
    · rw [if_neg hn]
      by_cases hp : s.isPinned = true
      · rw [if_pos hp]
        simp [ih]
      · rw [if_neg hp]
        rw [Bool.not_eq_true] at hp
        -- an unpinned step shows nothing, so it may stand before the held empty steps
        simp only [List.map_cons, ih, Step.pin?_eq_none hp]
        rw [← List.cons_append, ← List.replicate_succ, List.replicate_succ']
        simp

/-- Moving work leaves every pinned step where it is. -/
theorem map_pin?_trickle (p : Program) : p.trickle.1.map Step.pin? = p.map Step.pin? :=
  map_pin?_trickleAfter 0 p

theorem length_trickle (p : Program) : p.trickle.1.length = p.length := by
  have h := congrArg List.length (map_pin?_trickle p)
  simpa using h

/-- Moving work makes no new steps except empty ones. -/
theorem mem_trickleAfter {held : Nat} {p : Program} {s : Step} (h : s ∈ (trickleAfter held p).1) :
    s = .nop ∨ s ∈ p := by
  induction p generalizing held with
  | nil => exact .inl (List.eq_of_mem_replicate h)
  | cons t p ih =>
    rw [trickleAfter] at h
    split at h
    · exact (ih h).imp_right (List.mem_cons_of_mem t)
    · split at h
      · rcases List.mem_append.1 h with h | h
        · exact .inl (List.eq_of_mem_replicate h)
        · rcases List.mem_cons.1 h with rfl | h
          · exact .inr List.mem_cons_self
          · exact (ih h).imp_right (List.mem_cons_of_mem t)
      · rcases List.mem_cons.1 h with rfl | h
        · exact .inr List.mem_cons_self
        · exact (ih h).imp_right (List.mem_cons_of_mem t)

/-- Timing looks at pinned steps only. -/
theorem timed_congr {odd second first : Bool} {p q : Program}
    (h : p.map Step.pin? = q.map Step.pin?) : Timed odd second first p ↔ Timed odd second first q := by
  induction p generalizing odd second first q with
  | nil =>
    rw [List.map_nil] at h
    rw [List.map_eq_nil_iff.1 h.symm]
  | cons s p ih =>
    cases q with
    | nil => exact absurd h (by simp)
    | cons t q =>
      obtain ⟨hst, hpq⟩ := List.cons.inj h
      obtain ⟨ha, hi, hr⟩ := Step.has_eq_of_pin?_eq hst
      rw [Timed, Timed, ha, hi, hr, ih hpq]

/-- Moving work keeps a program disciplined. -/
theorem Disciplined.trickle {p : Program} (h : p.Disciplined) : p.trickle.1.Disciplined where
  orderly s hs := by
    rcases mem_trickleAfter hs with rfl | hs
    · exact Word.orderly_zero
    · exact h.orderly s hs
  timed := (timed_congr (map_pin?_trickle p)).2 h.timed

/-! ## Dropping empty steps -/

/-- Dropping steps leaves the others in their order. -/
theorem compact_sublist (p : Program) : p.compact.Sublist p := by
  induction p using compact.induct with
  | case1 s t p hn ih =>
    rw [compact, if_pos hn]
    exact (ih.cons t).cons s
  | case2 s t p hn ih =>
    rw [compact, if_neg hn]
    exact ih.cons_cons s
  | case3 p hp => simp [compact.eq_2 p hp]

theorem mem_compact {p : Program} {s : Step} (h : s ∈ p.compact) : s ∈ p :=
  (compact_sublist p).mem h

theorem compact_cons {s : Step} (hs : s.isNop = false) (p : Program) :
    compact (s :: p) = s :: p.compact := by
  cases p with
  | nil => rfl
  | cons t p => rw [compact, hs, Bool.false_and, if_neg Bool.false_ne_true]

/-- Steps are dropped in pairs. -/
theorem length_compact_mod_two (p : Program) : p.compact.length % 2 = p.length % 2 := by
  induction p using compact.induct with
  | case1 s t p hn ih =>
    rw [compact, if_pos hn, ih]
    simp only [List.length_cons]
    omega
  | case2 s t p hn ih =>
    rw [compact, if_neg hn]
    simp only [List.length_cons] at ih ⊢
    omega
  | case3 p hp => rw [compact.eq_2 p hp]

/-- Two empty steps have no read in flight around them, so time goes on without them. -/
theorem Timed.compact {odd second first : Bool} {p : Program} (h : Timed odd second first p) :
    Timed odd second first p.compact := by
  induction p using compact.induct generalizing odd second first with
  | case1 s t p hn ih =>
    rw [Program.compact, if_pos hn]
    rw [Bool.and_eq_true, Step.isNop_iff, Step.isNop_iff] at hn
    obtain ⟨rfl, rfl⟩ := hn
    obtain ⟨-, hsecond, -, hfirst, h⟩ := h
    rw [Bool.not_not] at h
    have hs : second = false := by rw [← hsecond]; rfl
    have hf : first = false := by rw [← hfirst]; rfl
    subst hs hf
    exact ih h
  | case2 s t p hn ih =>
    rw [Program.compact, if_neg hn]
    obtain ⟨hs, hi, h⟩ := h
    exact ⟨hs, hi, ih h⟩
  | case3 p hp => rwa [compact.eq_2 p hp]

/-- Dropping pairs keeps a program disciplined: two steps do not change the parity. -/
theorem Disciplined.compact {p : Program} (h : p.Disciplined) : p.compact.Disciplined where
  orderly s hs := h.orderly s (mem_compact hs)
  timed := h.timed.compact

end Program

end Microcode
