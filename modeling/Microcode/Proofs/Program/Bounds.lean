import Microcode.Proofs.Program.Deletion
import Microcode.Proofs.Program.Slots
import Microcode.Proofs.Program.Sweep

/-!
# Passes that test every index

The passes are done here in the two lists of a table, by index, in loops that read and write one entry at a time.
Every index is tested for being in range, and a loop gives nothing if one of them is not (`Table.hoistLoads?`,
`Table.trickle?`, `Table.compact?`).

On the table of a program the loops give what the passes give, so that no index is out of range
(`Table.optimize?_ofProgram`). What keeps the indices in range is that

* a load is visited only if its commit is in the program, and what it is moved to is before it;
* the queue of empty slots holds indices that have been passed;
* the two lists of the table have one length, and keep it.
-/

namespace Microcode

open Word

/-! ## Entries of a table -/

/-- Writes an entry of a list at an index, which has to be in range. -/
def setAt? {α : Type} (xs : List α) (i : Nat) (x : α) : Option (List α) :=
  if i < xs.length then some (xs.set i x) else none

namespace Table

/-- Writes a word. -/
def setWord? (t : Table) (i : Nat) (w : Word) : Option Table := do
  return { t with words := ← setAt? t.words i w }

/-- Whether the step at an index is empty. The coefficient is looked at only if the word is zero. -/
def isNop? (t : Table) (i : Nat) : Option Bool := do
  let w ← t.words[i]?
  if w = 0 then return (← t.coefs[i]?) == 0 else return false

/-- Exchanges the entries at two indices in both lists. -/
def swap? (t : Table) (i j : Nat) : Option Table := do
  let v ← t.words[i]?
  let w ← t.words[j]?
  let words ← setAt? (← setAt? t.words i w) j v
  let c ← t.coefs[i]?
  let d ← t.coefs[j]?
  let coefs ← setAt? (← setAt? t.coefs i d) j c
  return ⟨words, coefs⟩

/-! ## Hoisting loads -/

/-- Walks back from step `i` and stops behind the first step that bars the way. -/
def walkBack? (t : Table) (r : Nat) (adreb : Bool) : (i : Nat) → Option Nat
  | 0 => some 0
  | i + 1 => do
    let w ← t.words[i]?
    if w.bars r adreb then return i + 1 else t.walkBack? r adreb i

/-- Whether step `i` can take a read and step `i + 2` its commit. -/
def isFree? (t : Table) (i : Nat) : Option Bool := do
  let w ← t.words[i]?
  if w.has .mrd || w.has .mwt then return false
  else return !(← t.words[i + 2]?).has .iwt

/-- Tries every second step from `k` on, up to step `i`. -/
def trySecond? (t : Table) (i k : Nat) : Option (Option Nat) :=
  if k < i then do
    if ← t.isFree? k then return some k else t.trySecond? i (k + 2)
  else some none
termination_by i - k

/-- Searches for the target of the load at step `i`. -/
def search? (t : Table) (i : Nat) : Option (Option Nat) := do
  let r := (← t.words[i + 2]?).get .iwa
  let read ← t.words[i]?
  let between ← t.words[i + 1]?
  if read.uses r || between.uses r then return none
  else t.trySecond? i (Program.oddFrom (← t.walkBack? r (read.has .adreb) i))

/-- Moves the given fields from one step to another. -/
def moveFields? (t : Table) (fs : List Field) (source target : Nat) : Option Table := do
  let w ← t.words[target]?
  let v ← t.words[source]?
  let t ← t.setWord? target (w ||| v.pick fs)
  let v ← t.words[source]?
  t.setWord? source (v.clear fs)

/-- Visits step `i`: a load there is moved if it has a target, and counted. -/
def visit? : Table × Nat → Nat → Option (Table × Nat)
  | (t, count), i => do
    let read ← t.words[i]?
    let commit ← t.words[i + 2]?
    if read.has .mrd && commit.has .iwt then
      match ← t.search? i with
      | none => return (t, count)
      | some k =>
        let t ← t.moveFields? readFields i k
        let t ← t.moveFields? commitFields (i + 2) (k + 2)
        return (t, count + 1)
    else return (t, count)

/-- Moves every load from step 3 on to its target. -/
def hoistLoads? (t : Table) : Option (Table × Nat) :=
  (List.range' 3 (t.words.length - 5)).foldlM visit? (t, 0)

/-! ## Moving work -/

/-- Goes through a number of steps from index `i` on, with the empty slots in a queue that a step may be moved to. -/
def trickleFrom? {Q : Type*} (queue : SlotQueue Q) : (count i : Nat) → Q → Table → Option (Table × Nat)
  | 0, _, _, t => some (t, 0)
  | count + 1, i, free, t => do
    let w ← t.words[i]?
    if ← t.isNop? i then trickleFrom? queue count (i + 1) (queue.push i free) t
    else if w.has .mwt || w.has .mrd || w.has .iwt then trickleFrom? queue count (i + 1) queue.empty t
    else
      match queue.pop? free with
      | none => trickleFrom? queue count (i + 1) free t
      | some (slot, rest) =>
        let t ← t.swap? slot i
        let (t, moved) ← trickleFrom? queue count (i + 1) (queue.push i rest) t
        return (t, moved + (i - slot))

/-- Moves each step to the first empty slot that it may be moved to. -/
def trickle? {Q : Type*} (queue : SlotQueue Q) (t : Table) : Option (Table × Nat) :=
  trickleFrom? queue t.words.length 0 queue.empty t

/-! ## Dropping empty steps -/

/-- Whether there are two empty steps, at an index and behind it. -/
def isEmptyPair? (t : Table) (i : Nat) : Option Bool :=
  if i + 1 < t.words.length then do
    if ← t.isNop? i then t.isNop? (i + 1) else return false
  else some false

/-- Goes through the steps from index `i` on and collects those that stay. -/
def compactFrom? (t : Table) (i : Nat) (kept : Table) (dropped : Nat) : Option (Table × Nat) :=
  if i < t.words.length then do
    if ← t.isEmptyPair? i then t.compactFrom? (i + 2) kept (dropped + 2)
    else
      let w ← t.words[i]?
      let c ← t.coefs[i]?
      t.compactFrom? (i + 1) ⟨kept.words ++ [w], kept.coefs ++ [c]⟩ dropped
  else some (kept, dropped)
termination_by t.words.length - i

/-- Drops pairs of empty steps. If there is none, the table is left as it is. -/
def compact? (t : Table) : Option (Table × Nat) := do
  let (kept, dropped) ← t.compactFrom? 0 ⟨[], []⟩ 0
  if dropped = 0 then return (t, 0) else return (kept, dropped)

/-- Runs all passes. -/
def optimize? {Q : Type*} (queue : SlotQueue Q) (t : Table) : Option (Except SizeMismatch Table) :=
  if t.words.length ≠ t.coefs.length then some (.error ⟨t.words.length, t.coefs.length⟩)
  else do
    let (t, _) ← t.hoistLoads?
    let (t, _) ← t.trickle? queue
    let (t, _) ← t.compact?
    return .ok t

/-! ## Entries of a program -/

theorem length_words_ofProgram (p : Program) : (ofProgram p).words.length = p.length :=
  List.length_map _

theorem length_coefs_ofProgram (p : Program) : (ofProgram p).coefs.length = p.length :=
  List.length_map _

/-- The two lists of the table of a program have one length. -/
theorem length_words_eq_length_coefs (p : Program) : (ofProgram p).words.length = (ofProgram p).coefs.length := by
  rw [length_words_ofProgram, length_coefs_ofProgram]

section Entries

variable {p : Program} {i : Nat}

theorem getElem?_words (hi : i < p.length) : (ofProgram p).words[i]? = some (p.wordAt i) := by
  show (p.map Step.word)[i]? = some (p.wordAt i)
  rw [List.getElem?_map, Program.wordAt, List.getElem?_eq_getElem hi]
  rfl

theorem getElem?_coefs (hi : i < p.length) : (ofProgram p).coefs[i]? = some (p.stepAt i).coef := by
  show (p.map Step.coef)[i]? = some (p.stepAt i).coef
  rw [List.getElem?_map, Program.stepAt, List.getElem?_eq_getElem hi]
  rfl

theorem isNop?_ofProgram (hi : i < p.length) : (ofProgram p).isNop? i = some (p.stepAt i).isNop := by
  have hword : p.wordAt i = (p.stepAt i).word := rfl
  simp only [isNop?, getElem?_words hi, getElem?_coefs hi, hword, Step.isNop]
  by_cases hzero : (p.stepAt i).word = 0
  · simp [hzero]
  · simp [hzero]

theorem setAt?_words (hi : i < p.length) (s : Step) :
    setAt? (ofProgram p).words i s.word = some (ofProgram (p.set i s)).words := by
  have hlength : i < (ofProgram p).words.length := by rwa [length_words_ofProgram]
  rw [setAt?, if_pos hlength]
  exact congrArg some List.map_set.symm

theorem setAt?_coefs (hi : i < p.length) (s : Step) :
    setAt? (ofProgram p).coefs i s.coef = some (ofProgram (p.set i s)).coefs := by
  have hlength : i < (ofProgram p).coefs.length := by rwa [length_coefs_ofProgram]
  rw [setAt?, if_pos hlength]
  exact congrArg some List.map_set.symm

theorem setWord?_ofProgram (hi : i < p.length) (f : Word → Word) :
    (ofProgram p).setWord? i (f (p.wordAt i)) = some (ofProgram (p.modifyWord i f)) := by
  have hmodify : p.modifyWord i f = p.set i ⟨f (p.wordAt i), (p.stepAt i).coef⟩ := by
    rw [Program.modifyWord, List.modify_eq_set_get _ hi, Program.wordAt, Program.stepAt, List.getElem?_eq_getElem hi]
    rfl
  have hwords : setAt? (ofProgram p).words i (f (p.wordAt i)) = some (ofProgram (p.modifyWord i f)).words := by
    rw [hmodify]
    exact setAt?_words hi ⟨f (p.wordAt i), (p.stepAt i).coef⟩
  have hcoefs : (ofProgram (p.modifyWord i f)).coefs = (ofProgram p).coefs := Program.coefs_modifyWord p i f
  rw [setWord?, hwords, ← hcoefs]
  rfl

/-- Fields are moved between steps that exist. -/
theorem moveFields?_ofProgram {source target : Nat} (fs : List Field) (hs : source < p.length)
    (ht : target < p.length) :
    (ofProgram p).moveFields? fs source target = some (ofProgram (p.moveFields fs source target)) := by
  have hs' : source < (p.modifyWord target (· ||| (p.wordAt source).pick fs)).length := by
    rwa [Program.length_modifyWord]
  unfold moveFields?
  simp only [getElem?_words ht, getElem?_words hs, Option.bind_eq_bind, Option.bind_some]
  rw [setWord?_ofProgram ht (· ||| (p.wordAt source).pick fs), Option.bind_some, getElem?_words hs',
    Option.bind_some, setWord?_ofProgram hs' (·.clear fs)]
  rfl

theorem swap?_ofProgram {j : Nat} (hi : i < p.length) (hj : j < p.length) :
    (ofProgram p).swap? i j = some (ofProgram (p.swap i j)) := by
  have hj' : j < (p.set i (p.stepAt j)).length := by
    rwa [List.length_set]
  have hword : ∀ k, p.wordAt k = (p.stepAt k).word := fun _ => rfl
  unfold swap?
  simp only [getElem?_words hi, getElem?_words hj, getElem?_coefs hi, getElem?_coefs hj, hword,
    setAt?_words hi, setAt?_words hj', setAt?_coefs hi, setAt?_coefs hj', Option.bind_eq_bind, Option.bind_some]
  rfl

end Entries

/-! ## The passes on a program -/

section Hoisting

variable {p : Program} {i : Nat}

/-- The walk back looks at no step in front of the first one. -/
theorem walkBack?_ofProgram (r : Nat) (adreb : Bool) (hi : i ≤ p.length) :
    (ofProgram p).walkBack? r adreb i = some (Program.walkBack (fun k => (p.wordAt k).bars r adreb) i) := by
  induction i with
  | zero => rfl
  | succ i ih =>
    rw [walkBack?, getElem?_words hi, Option.bind_eq_bind, Option.bind_some, Program.walkBack]
    split
    · rfl
    · exact ih (Nat.le_of_succ_le hi)

theorem isFree?_ofProgram (hi : i + 2 < p.length) : (ofProgram p).isFree? i = some (p.isFree i) := by
  have hi' : i < p.length := by omega
  simp only [isFree?, getElem?_words hi', getElem?_words hi, Program.isFree, Option.bind_eq_bind, Option.bind_some]
  cases (p.wordAt i).has .mrd <;> cases (p.wordAt i).has .mwt <;> rfl

/-- The steps that are tried are before the load, and their commits not behind its own. -/
theorem trySecond?_ofProgram (k : Nat) (hi : i + 2 ≤ p.length) :
    (ofProgram p).trySecond? i k = some (Program.trySecond p.isFree i k) := by
  fun_induction Program.trySecond p.isFree i k with
  | case1 k hlt hfree =>
    rw [trySecond?, if_pos hlt, isFree?_ofProgram (by omega), hfree]
    rfl
  | case2 k hlt hfree ih =>
    rw [trySecond?, if_pos hlt, isFree?_ofProgram (by omega), Option.bind_eq_bind, Option.bind_some, if_neg hfree, ih]
  | case3 k hlt => rw [trySecond?, if_neg hlt]

/-- The search for a slot looks at steps of the program only. -/
theorem search?_ofProgram (hi : i + 2 < p.length) : (ofProgram p).search? i = some (p.hoistTarget i) := by
  have hread : i < p.length := by omega
  have hbetween : i + 1 < p.length := by omega
  rw [← Program.search_eq_hoistTarget (Nat.le_of_lt hread)]
  simp only [search?, getElem?_words hi, getElem?_words hread, getElem?_words hbetween,
    walkBack?_ofProgram _ _ (Nat.le_of_lt hread), trySecond?_ofProgram _ (Nat.le_of_lt hi), Option.bind_eq_bind,
    Option.bind_some]
  exact (apply_ite some _ _ _).symm

/-- A load is moved to a step before it, so that all four steps that are changed exist. -/
theorem visit?_ofProgram (hi : i + 2 < p.length) (n : Nat) :
    visit? (ofProgram p, n) i = some (ofProgram (Program.visit (p, n) i).1, (Program.visit (p, n) i).2) := by
  have hread : i < p.length := by omega
  have hload : ((p.wordAt i).has .mrd && (p.wordAt (i + 2)).has .iwt) = p.isLoad i := rfl
  simp only [visit?, getElem?_words hread, getElem?_words hi, search?_ofProgram hi, Option.bind_eq_bind,
    Option.bind_some, hload]
  split
  · next hload =>
    cases htarget : p.hoistTarget i with
    | none =>
      rw [Program.visit_eq_self fun _ => htarget]
      rfl
    | some k =>
      have hk : k < i := (Program.hoistTarget_eq_some hload htarget).lt
      -- the first of the two moves does not change the length
      have hcommit : i + 2 < (p.moveFields readFields i k).length := by rwa [Program.length_moveFields]
      rw [Program.visit_eq_hoist hload htarget]
      dsimp only
      rw [moveFields?_ofProgram _ hread (by omega), Option.bind_some, moveFields?_ofProgram _ hcommit (by omega)]
      rfl
  · next hload =>
    rw [Program.visit_eq_self fun h => absurd h hload]
    rfl

theorem length_visit (p : Program) (n i : Nat) : (Program.visit (p, n) i).1.length = p.length := by
  unfold Program.visit
  dsimp only
  split
  · split
    · exact Program.length_hoist p i _
    · rfl
  · rfl

/-- No visit of the pass is out of range, for no visit changes the length. -/
theorem foldlM_visit?_ofProgram {is : List Nat} (his : ∀ i ∈ is, i + 2 < p.length) (n : Nat) :
    is.foldlM visit? (ofProgram p, n) =
      some (ofProgram (is.foldl Program.visit (p, n)).1, (is.foldl Program.visit (p, n)).2) := by
  induction is generalizing p n with
  | nil => rfl
  | cons i is ih =>
    rw [List.foldlM_cons, visit?_ofProgram (his i List.mem_cons_self), Option.bind_eq_bind, Option.bind_some,
      List.foldl_cons]
    apply ih
    intro k hk
    rw [length_visit]
    exact his k (List.mem_cons_of_mem i hk)

/-- The first pass is never out of range. -/
theorem hoistLoads?_ofProgram (p : Program) :
    (ofProgram p).hoistLoads? = some (ofProgram p.hoistLoads.1, p.hoistLoads.2) := by
  rw [hoistLoads?, length_words_ofProgram]
  apply foldlM_visit?_ofProgram
  intro i hi
  rw [List.mem_range'_1] at hi
  omega

end Hoisting

/-- The queue holds indices that have been passed, so that both steps of an exchange exist. -/
theorem trickleFrom?_ofProgram {Q : Type*} (queue : SlotQueue Q) {count i : Nat} {free : Q} {p : Program}
    (hlength : i + count ≤ p.length) (hfree : ∀ slot ∈ queue.slots free, slot < i) :
    trickleFrom? queue count i free (ofProgram p) =
      some (ofProgram (queue.scheduleFrom count i free p).1, (queue.scheduleFrom count i free p).2) := by
  induction count generalizing i free p with
  | zero => rfl
  | succ count ih =>
    have hi : i < p.length := by omega
    have hnext : i + 1 + count ≤ p.length := by omega
    have hpinned : ((p.wordAt i).has .mwt || (p.wordAt i).has .mrd || (p.wordAt i).has .iwt) =
      (p.stepAt i).isPinned := rfl
    -- the slots in the queue are behind the step that is looked at, which keeps every exchange in range
    have hlater : ∀ slot ∈ queue.slots free, slot < i + 1 := fun slot hs => Nat.lt_succ_of_lt (hfree slot hs)
    rw [trickleFrom?, SlotQueue.scheduleFrom]
    simp only [getElem?_words hi, isNop?_ofProgram hi, hpinned, Option.bind_eq_bind, Option.bind_some]
    split
    · apply ih hnext
      intro slot hs
      rw [queue.slots_push, Multiset.mem_cons] at hs
      rcases hs with rfl | hs
      · exact Nat.lt_succ_self slot
      · exact hlater slot hs
    · split
      · apply ih hnext
        intro slot hs
        rw [queue.slots_empty] at hs
        exact absurd hs (Multiset.notMem_zero slot)
      · cases hpop : queue.pop? free with
        | none => exact ih hnext hlater
        | some popped =>
          obtain ⟨slot, rest⟩ := popped
          -- the slot that is taken was in the queue, so it exists
          have hslots := (queue.pop?_some free slot rest hpop).1
          have hslot : slot < i := hfree slot (by rw [hslots]; exact Multiset.mem_cons_self _ _)
          have hswap : (p.swap slot i).length = p.length := by
            rw [Program.swap, List.length_set, List.length_set]
          dsimp only
          rw [swap?_ofProgram (by omega) hi, Option.bind_some, ih (by rwa [hswap])]
          · rfl
          · intro k hk
            rw [queue.slots_push, Multiset.mem_cons] at hk
            rcases hk with rfl | hk
            · exact Nat.lt_succ_self k
            · exact hlater k (by rw [hslots]; exact Multiset.mem_cons_of_mem hk)

/-- The second pass is never out of range. -/
theorem trickle?_ofProgram {Q : Type*} (queue : SlotQueue Q) (p : Program) :
    (ofProgram p).trickle? queue = some (ofProgram p.trickle.1, p.trickle.2) := by
  rw [trickle?, length_words_ofProgram, trickleFrom?_ofProgram queue (by omega) ?_, ← queue.schedule_eq_trickle]
  · rfl
  · intro slot hs
    rw [queue.slots_empty] at hs
    exact absurd hs (Multiset.notMem_zero slot)

theorem isEmptyPair?_ofProgram (p : Program) (i : Nat) :
    (ofProgram p).isEmptyPair? i = some (p.emptyPairAt i) := by
  have hany : ∀ {k}, k < p.length → p[k]?.any (·.isNop) = (p.stepAt k).isNop := by
    intro k hk
    rw [Program.stepAt, List.getElem?_eq_getElem hk]
    rfl
  unfold isEmptyPair?
  rw [length_words_ofProgram, Program.emptyPairAt]
  split
  · next hi =>
    rw [isNop?_ofProgram (Nat.lt_of_succ_lt hi), isNop?_ofProgram hi, hany hi, hany (Nat.lt_of_succ_lt hi)]
    cases (p.stepAt i).isNop <;> rfl
  · next hi =>
    have hnone : p[i + 1]? = none := List.getElem?_eq_none (by omega)
    rw [hnone, Option.any_none, Bool.and_false]

theorem compactFrom?_of_lt {p : Program} {i : Nat} (hi : i < p.length) (kept : Program) (dropped : Nat) :
    (ofProgram p).compactFrom? i (ofProgram kept) dropped =
      if p.emptyPairAt i then (ofProgram p).compactFrom? (i + 2) (ofProgram kept) (dropped + 2)
      else (ofProgram p).compactFrom? (i + 1) (ofProgram (kept ++ [p.stepAt i])) dropped := by
  have hlength : i < (ofProgram p).words.length := by rwa [length_words_ofProgram]
  have hkept : (⟨(ofProgram kept).words ++ [p.wordAt i], (ofProgram kept).coefs ++ [(p.stepAt i).coef]⟩ : Table) =
      ofProgram (kept ++ [p.stepAt i]) := by
    simp [ofProgram, Program.words, Program.coefs, Program.wordAt, Program.stepAt]
  rw [compactFrom?, if_pos hlength, isEmptyPair?_ofProgram, getElem?_words hi, getElem?_coefs hi,
    Option.bind_eq_bind, Option.bind_some]
  split
  · rfl
  · rw [← hkept]
    rfl

theorem compactFrom?_length (p kept : Program) (dropped : Nat) :
    (ofProgram p).compactFrom? p.length (ofProgram kept) dropped = some (ofProgram kept, dropped) := by
  have hlength : ¬ p.length < (ofProgram p).words.length := by
    rw [length_words_ofProgram]
    exact Nat.lt_irrefl _
  rw [compactFrom?, if_neg hlength]

theorem emptyPairAt_length (done rest : Program) :
    (done ++ rest : Program).emptyPairAt done.length = rest.emptyPairAt 0 := by
  have hnext : done.length + 1 - done.length = 1 := by omega
  rw [Program.emptyPairAt, List.getElem?_append_right (Nat.le_refl _), List.getElem?_append_right (Nat.le_add_right _ 1),
    Nat.sub_self, hnext]
  rfl

theorem dropCount_pair {s t : Step} {rest : Program} (h : (s.isNop && t.isNop) = true) :
    Program.dropCount (s :: t :: rest) = Program.dropCount rest + 2 := by
  have hrest := Program.length_compact_add_dropCount rest
  rw [Program.dropCount, Program.compact, if_pos h, List.length_cons, List.length_cons]
  omega

theorem dropCount_cons_cons {s t : Step} {rest : Program} (h : ¬(s.isNop && t.isNop) = true) :
    Program.dropCount (s :: t :: rest) = Program.dropCount (t :: rest) := by
  have hlength : Program.compact (s :: t :: rest) = s :: Program.compact (t :: rest) := by
    rw [Program.compact, if_neg h]
  rw [Program.dropCount, hlength]
  exact Nat.add_sub_add_right _ 1 _

/-- What is left of the steps behind an index is added to what was kept before. -/
theorem compactFrom?_append (done rest kept : Program) (dropped : Nat) :
    (ofProgram (done ++ rest)).compactFrom? done.length (ofProgram kept) dropped =
      some (ofProgram (kept ++ rest.compact), dropped + rest.dropCount) := by
  induction rest using Program.compact.induct generalizing done kept dropped with
  | case1 s t rest hn ih =>
    have hlt : done.length < (done ++ s :: t :: rest).length := by simp
    have hpair : Program.emptyPairAt (s :: t :: rest) 0 = true := hn
    have h := ih (done ++ [s, t]) kept (dropped + 2)
    rw [List.append_assoc, List.length_append, Nat.add_assoc, Nat.add_comm 2] at h
    rw [compactFrom?_of_lt hlt, emptyPairAt_length, if_pos hpair, dropCount_pair hn, Program.compact, if_pos hn]
    exact h
  | case2 s t rest hn ih =>
    have hlt : done.length < (done ++ s :: t :: rest).length := by simp
    have hpair : ¬ Program.emptyPairAt (s :: t :: rest) 0 = true := hn
    have h := ih (done ++ [s]) (kept ++ [s]) dropped
    rw [List.append_assoc, List.append_assoc, List.length_append] at h
    rw [compactFrom?_of_lt hlt, emptyPairAt_length, if_neg hpair, dropCount_cons_cons hn, Program.compact, if_neg hn,
      Program.stepAt_append_length]
    exact h
  | case3 rest hrest =>
    rcases Program.eq_nil_or_singleton hrest with rfl | ⟨s, rfl⟩
    · have hkept : kept ++ Program.compact [] = kept := List.append_nil kept
      rw [List.append_nil, hkept]
      exact compactFrom?_length done kept dropped
    · have hlt : done.length < (done ++ [s]).length := by simp
      have hnone : ¬ Program.emptyPairAt [s] 0 = true := by simp [Program.emptyPairAt]
      -- a single step at the end is never half of a pair
      have hend := compactFrom?_length (done ++ [s]) (kept ++ [s]) dropped
      rw [List.length_append] at hend
      rw [compactFrom?_of_lt hlt, emptyPairAt_length, if_neg hnone, Program.stepAt_append_length]
      exact hend

/-- The third pass is never out of range. -/
theorem compact?_ofProgram (p : Program) : (ofProgram p).compact? = some (ofProgram p.compact, p.dropCount) := by
  have hloop : (ofProgram p).compactFrom? 0 ⟨[], []⟩ 0 = some (ofProgram p.compact, p.dropCount) := by
    have h := compactFrom?_append [] p [] 0
    rw [Nat.zero_add] at h
    exact h
  have hcompact : (ofProgram p).compact = (ofProgram p.compact, p.dropCount) := by
    rw [compact_eq (length_words_eq_length_coefs p), steps_ofProgram]
  rw [← hcompact, compact, steps_ofProgram, compact?, hloop]
  exact (apply_ite some _ _ _).symm

/-- **No index of the passes is out of range.** On the table of a program, the passes that test every index give the
table of the optimised program. -/
theorem optimize?_ofProgram {Q : Type*} (queue : SlotQueue Q) (p : Program) :
    (ofProgram p).optimize? queue = some (.ok (ofProgram p.optimize)) := by
  rw [optimize?, if_neg (not_not_intro (length_words_eq_length_coefs p)), hoistLoads?_ofProgram, Option.bind_eq_bind,
    Option.bind_some]
  dsimp only
  rw [trickle?_ofProgram, Option.bind_some]
  dsimp only
  rw [compact?_ofProgram]
  rfl

end Table

end Microcode
