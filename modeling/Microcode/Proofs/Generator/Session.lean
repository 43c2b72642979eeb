import Mathlib.Data.List.Induction
import Mathlib.Data.List.Nodup
import Microcode.Proofs.Generator.Discipline

/-!
# Sessions with a generator

A session takes lines and hands out programs in any order. Handing a program out pads the steps of the
generator itself, so later lines start behind the padding.

Next to the generator, a session notes the coefficients in a table of their own: a line that has one writes
it down under the index that its step gets (`Session.noted`). The notes are only ever added to. They stay
right all the same (`Session.noted_run`): no step is moved or removed later on, so the table of coefficients
can be rebuilt from them at any time (`Program.denseTable?_weights`).
-/

namespace Microcode

open Word

/-! ## Tables of coefficients -/

/-- Writes an entry into a table. Behind the end of the table there is no place for it. -/
def writeEntry? (table : List Int) (entry : Nat × Int) : Option (List Int) :=
  if entry.1 < table.length then some (table.set entry.1 entry.2) else none

/-- A table of the given size with the given entries, and with zeros elsewhere. -/
def denseTable? (size : Nat) (entries : List (Nat × Int)) : Option (List Int) :=
  entries.foldlM writeEntry? (List.replicate size 0)

/-- Entries that have a place are all written. -/
theorem foldlM_writeEntry? {entries : List (Nat × Int)} {table : List Int}
    (h : ∀ e ∈ entries, e.1 < table.length) :
    entries.foldlM writeEntry? table = some (entries.foldl (fun t e => t.set e.1 e.2) table) := by
  induction entries generalizing table with
  | nil => rfl
  | cons e entries ih =>
    have hfirst : writeEntry? table e = some (table.set e.1 e.2) := if_pos (h e List.mem_cons_self)
    have hrest : ∀ e' ∈ entries, e'.1 < (table.set e.1 e.2).length := by
      intro e' he'
      rw [List.length_set]
      exact h e' (List.mem_cons_of_mem e he')
    rw [List.foldlM_cons, hfirst, List.foldl_cons]
    exact ih hrest

/-- Entries with different indices can be written in any order. -/
theorem foldl_set_perm {entries entries' : List (Nat × Int)} (hperm : entries.Perm entries')
    (hkeys : (entries.map (·.1)).Nodup) (table : List Int) :
    entries.foldl (fun t e => t.set e.1 e.2) table = entries'.foldl (fun t e => t.set e.1 e.2) table := by
  apply hperm.foldl_eq'
  intro e he e' he' t
  by_cases hkey : e.1 = e'.1
  · -- the same index means the same entry
    have heq : e = e' := List.inj_on_of_nodup_map hkeys he he' hkey
    rw [heq]
  · exact List.set_comm e.2 e'.2 hkey

namespace Program

/-- The coefficients of a program that are not zero, under their indices from `n` on. -/
def weightsFrom (n : Nat) : Program → List (Nat × Int)
  | [] => []
  | s :: p => (if s.coef = 0 then [] else [(n, s.coef)]) ++ weightsFrom (n + 1) p

/-- The coefficients of a program that are not zero, under their indices. -/
def weights (p : Program) : List (Nat × Int) :=
  p.weightsFrom 0

/-- The entries of the second part come behind those of the first, with the indices moved on. -/
theorem weightsFrom_append (n : Nat) (p q : Program) :
    weightsFrom n (p ++ q) = weightsFrom n p ++ weightsFrom (n + p.length) q := by
  induction p generalizing n with
  | nil => rfl
  | cons s p ih =>
    have hlen : n + 1 + p.length = n + (s :: p).length := by
      rw [List.length_cons]
      omega
    rw [List.cons_append, weightsFrom, weightsFrom, ih, hlen, List.append_assoc]

/-- Steps without coefficients have no entries. -/
theorem weightsFrom_eq_nil {p : Program} (h : ∀ s ∈ p, s.coef = 0) (n : Nat) : weightsFrom n p = [] := by
  induction p generalizing n with
  | nil => rfl
  | cons s p ih =>
    rw [weightsFrom, if_pos (h s List.mem_cons_self), ih fun t ht => h t (List.mem_cons_of_mem s ht)]
    rfl

/-- An entry is the coefficient of the step at its index. -/
theorem exists_step_of_mem_weightsFrom {n : Nat} {p : Program} {e : Nat × Int} (h : e ∈ weightsFrom n p) :
    ∃ k s, e.1 = n + k ∧ p[k]? = some s ∧ s.coef = e.2 ∧ e.2 ≠ 0 := by
  induction p generalizing n with
  | nil => exact absurd h List.not_mem_nil
  | cons s p ih =>
    rcases List.mem_append.1 h with h | h
    · split at h
      · exact absurd h List.not_mem_nil
      · next hs =>
        rw [List.mem_singleton.1 h]
        exact ⟨0, s, rfl, rfl, rfl, hs⟩
    · obtain ⟨k, t, hk, ht, hcoef, hne⟩ := ih h
      exact ⟨k + 1, t, by omega, ht, hcoef, hne⟩

/-- A coefficient that is not zero is an entry. -/
theorem mem_weightsFrom {p : Program} {k : Nat} {s : Step} (hs : p[k]? = some s) (hne : s.coef ≠ 0) (n : Nat) :
    (n + k, s.coef) ∈ weightsFrom n p := by
  induction p generalizing n k with
  | nil => cases hs
  | cons t p ih =>
    rw [weightsFrom, List.mem_append]
    cases k with
    | zero =>
      cases hs
      rw [if_neg hne]
      exact .inl List.mem_cons_self
    | succ k =>
      right
      rw [← Nat.add_assoc, Nat.add_right_comm]
      exact ih hs (n + 1)

/-- The entries of a program are its coefficients that are not zero. -/
theorem mem_weights_iff {p : Program} {k : Nat} {c : Int} :
    (k, c) ∈ p.weights ↔ (∃ s, p[k]? = some s ∧ s.coef = c) ∧ c ≠ 0 := by
  constructor
  · intro h
    obtain ⟨j, s, hj, hs, hcoef, hne⟩ := exists_step_of_mem_weightsFrom h
    rw [show j = k by omega] at hs
    exact ⟨⟨s, hs, hcoef⟩, hne⟩
  · rintro ⟨⟨s, hs, rfl⟩, hne⟩
    have hmem := mem_weightsFrom hs hne 0
    rwa [Nat.zero_add] at hmem

/-- An entry belongs to a step of the program. -/
theorem lt_length_of_mem_weights {p : Program} {e : Nat × Int} (h : e ∈ p.weights) : e.1 < p.length := by
  obtain ⟨k, s, hk, hs, -⟩ := exists_step_of_mem_weightsFrom h
  have hlt : k < p.length := (List.getElem?_eq_some_iff.1 hs).1
  omega

/-- No step has two entries. -/
theorem nodup_keys_weightsFrom (n : Nat) (p : Program) : ((weightsFrom n p).map (·.1)).Nodup := by
  induction p generalizing n with
  | nil => exact List.nodup_nil
  | cons s p ih =>
    rw [weightsFrom]
    split
    · exact ih (n + 1)
    · rw [List.singleton_append, List.map_cons, List.nodup_cons]
      refine ⟨?_, ih (n + 1)⟩
      -- the later entries have later indices
      intro hmem
      obtain ⟨e, he, hkey⟩ := List.mem_map.1 hmem
      obtain ⟨k, -, hk, -⟩ := exists_step_of_mem_weightsFrom he
      omega

/-- Writing the entries of a program behind other coefficients gives its coefficients. -/
theorem foldl_set_weightsFrom (before : List Int) (p : Program) :
    (weightsFrom before.length p).foldl (fun t e => t.set e.1 e.2)
      (before ++ List.replicate p.length 0) = before ++ coefs p := by
  induction p generalizing before with
  | nil => rfl
  | cons s p ih =>
    -- the table up to the step is done, and its entry can be anything
    have hih : ∀ c : Int, (weightsFrom (before.length + 1) p).foldl (fun t e => t.set e.1 e.2)
        (before ++ c :: List.replicate p.length 0) = before ++ c :: Program.coefs p := by
      intro c
      have hc := ih (before ++ [c])
      rw [List.length_append, List.length_singleton, List.append_assoc, List.append_assoc] at hc
      exact hc
    rw [weightsFrom, List.foldl_append, List.length_cons, List.replicate_succ]
    split
    · next hs =>
      rw [List.foldl_nil, hih 0]
      show before ++ 0 :: Program.coefs p = before ++ s.coef :: Program.coefs p
      rw [hs]
    · rw [List.foldl_cons, List.foldl_nil, List.set_append_right _ _ (Nat.le_refl _), Nat.sub_self]
      exact hih s.coef

/-- The table of a program can be rebuilt from its entries, in whatever order they come. -/
theorem denseTable?_weights {p : Program} {entries : List (Nat × Int)} (h : entries.Perm p.weights) :
    denseTable? p.length entries = some p.coefs := by
  have hplace : ∀ e ∈ entries, e.1 < (List.replicate p.length (0 : Int)).length := by
    intro e he
    rw [List.length_replicate]
    exact lt_length_of_mem_weights (h.mem_iff.1 he)
  have hkeys : (entries.map (·.1)).Nodup :=
    (h.map (·.1)).nodup_iff.2 (nodup_keys_weightsFrom 0 p)
  rw [denseTable?, foldlM_writeEntry? hplace, foldl_set_perm h hkeys]
  exact congrArg some (foldl_set_weightsFrom [] p)

end Program

/-! ## Steps with a coefficient -/

/-- A step that has a coefficient uses it, and writes nothing but the accumulator. -/
structure Step.Weighted (s : Step) : Prop where
  range : coefMin ≤ s.coef ∧ s.coef ≤ coefMax
  factor : s.word.get .ysel = 1
  quiet : ∀ f ∈ [Field.twt, .ewt, .yrl, .adrl], s.word.has f = false

/-- The coefficient of an instruction. -/
def Instruction.coef : Instruction → Int
  | mac m => m.factor.coef
  | _ => 0

/-- A multiplication by a coefficient selects it and writes nothing. -/
theorem Mac.weighted_step (input : Input) {m : Mac} (h : m.factor.coef ≠ 0) : (m.step input).Weighted := by
  -- no other factor has a coefficient
  obtain ⟨c, hc⟩ : ∃ c, m.factor = .coefficient c := by
    cases hf : m.factor with
    | coefficient c => exact ⟨c, rfl⟩
    | yregLow => exact absurd (by rw [hf]; rfl) h
    | yreg => exact absurd (by rw [hf]; rfl) h
    | shifted => exact absurd (by rw [hf]; rfl) h
  have hcoef : (m.step input).coef = c.val := by
    show m.factor.coef = c.val
    rw [hc]
    rfl
  refine ⟨?_, ?_, ?_⟩
  · rw [hcoef]
    exact c.property
  · rw [get_ysel_step, hc]
    rfl
  · intro f hf
    have hother : f ∉ Mac.fields := by
      revert f
      decide
    exact has_eq_false_iff.2 (get_step_of_not_mem hother)

namespace Instruction

/-- Only a multiplication has a step with a coefficient. -/
theorem coef_eq_zero_of_mem_block {i : Instruction} (hi : i.coef = 0) {input : Input} {mode : ShiftMode}
    {s : Step} (hs : s ∈ i.block input mode) : s.coef = 0 := by
  cases i with
  | madrs line => exact absurd hs List.not_mem_nil
  | select input => exact absurd hs List.not_mem_nil
  | mode m => exact absurd hs List.not_mem_nil
  | output o =>
    simp only [block] at hs
    split at hs
    · rcases List.mem_cons.1 hs with rfl | hs
      · rfl
      · rw [List.mem_singleton.1 hs]
        rfl
    · rw [List.mem_singleton.1 hs]
      rfl
  | mac m =>
    -- the only step that could have a coefficient
    rw [List.mem_singleton.1 hs]
    exact hi
  | storeTemp r =>
    rw [List.mem_singleton.1 hs]
    rfl
  | store a =>
    rw [List.mem_singleton.1 hs]
    rfl
  | load a r =>
    rcases List.mem_cons.1 hs with rfl | hs
    · rfl
    · rcases List.mem_cons.1 hs with rfl | hs
      · rfl
      · rw [List.mem_singleton.1 hs]
        rfl

/-- An instruction with a coefficient is a multiplication. -/
theorem eq_mac_of_coef_ne_zero {i : Instruction} (hi : i.coef ≠ 0) :
    ∃ m : Mac, i = .mac m ∧ m.factor.coef = i.coef := by
  cases i with
  | mac m => exact ⟨m, rfl, rfl⟩
  | _ => exact absurd rfl hi

/-- All steps of an instruction have its coefficient. -/
theorem coef_of_mem_block {i : Instruction} {input : Input} {mode : ShiftMode} {s : Step}
    (hs : s ∈ i.block input mode) : s.coef = i.coef := by
  by_cases hi : i.coef = 0
  · rw [hi, coef_eq_zero_of_mem_block hi hs]
  · obtain ⟨m, rfl, hm⟩ := eq_mac_of_coef_ne_zero hi
    rw [List.mem_singleton.1 hs]
    exact hm

/-- Every coefficient that an instruction emits belongs to a step that uses it. -/
theorem weighted_block (i : Instruction) (input : Input) (mode : ShiftMode) :
    ∀ s ∈ i.block input mode, s.coef ≠ 0 → s.Weighted := by
  intro s hs hne
  have hi : i.coef ≠ 0 := fun h => hne (coef_eq_zero_of_mem_block h hs)
  obtain ⟨m, rfl, -⟩ := eq_mac_of_coef_ne_zero hi
  rw [List.mem_singleton.1 hs]
  exact m.weighted_step input hi

end Instruction

/-! ## Loads -/

namespace Program

/-- Before any hoisting, a read is followed by an empty step and by a commit that does nothing else. -/
def LoadsApart (p : Program) : Prop :=
  ∀ k, (p.wordAt k).has .mrd = true →
    p[k + 1]? = some .nop ∧
      ∃ r : Fin memsCount, p[k + 2]? = some (.ofWord (((0 : Word).set .iwt 1).set .iwa r))

/-- A load does not reach across the border of two parts. -/
theorem LoadsApart.append {p q : Program} (hp : p.LoadsApart) (hq : q.LoadsApart) :
    (p ++ q).LoadsApart := by
  intro k hk
  rcases Nat.lt_or_ge k p.length with hlt | hge
  · rw [wordAt, List.getElem?_append_left hlt] at hk
    obtain ⟨h1, r, h2⟩ := hp k hk
    -- the commit is in the same part as the read
    have hlen : k + 2 < p.length := (List.getElem?_eq_some_iff.1 h2).1
    rw [List.getElem?_append_left (by omega), List.getElem?_append_left hlen]
    exact ⟨h1, r, h2⟩
  · rw [wordAt, List.getElem?_append_right hge] at hk
    obtain ⟨h1, r, h2⟩ := hq (k - p.length) hk
    rw [List.getElem?_append_right (by omega), List.getElem?_append_right (by omega),
      show k + 1 - p.length = k - p.length + 1 by omega, show k + 2 - p.length = k - p.length + 2 by omega]
    exact ⟨h1, r, h2⟩

/-- A program that reads nothing. -/
theorem LoadsApart.of_not_mrd {p : Program} (h : ∀ s ∈ p, s.word.has .mrd = false) : p.LoadsApart := by
  intro k hk
  have hnone : (p.wordAt k).has .mrd = false :=
    (@forall_wordAt (fun w => w.has .mrd = false) (has_zero _) p).2 h k
  rw [hnone] at hk
  exact Bool.noConfusion hk

theorem LoadsApart.nop : LoadsApart [.nop] := by
  apply LoadsApart.of_not_mrd
  intro s hs
  rw [List.mem_singleton.1 hs]
  exact has_zero _

end Program

/-- The three steps of a load come as one block. -/
theorem Instruction.loadsApart_block (i : Instruction) (input : Input) (mode : ShiftMode) :
    Program.LoadsApart (i.block input mode) := by
  cases hi : i.needsOdd with
  | false => exact .of_not_mrd fun s hs => (Instruction.plain_block hi input mode s hs).has (by decide)
  | true =>
    rcases Instruction.eq_of_needsOdd hi with ⟨a, rfl⟩ | ⟨a, r, rfl⟩
    · apply Program.LoadsApart.of_not_mrd
      intro s hs
      rw [List.mem_singleton.1 hs]
      exact has_eq_false_iff.2 (a.get_writeWord_of_not_mem mode (by decide) (by decide) (by decide))
    · -- behind the read there is none
      have hnone : Program.LoadsApart [.nop, .ofWord (((0 : Word).set .iwt 1).set .iwa r)] := by
        apply Program.LoadsApart.of_not_mrd
        intro s hs
        rcases List.mem_cons.1 hs with rfl | hs
        · exact has_zero _
        · rw [List.mem_singleton.1 hs]
          exact has_eq_false_iff.2 (get_commitWord_of_not_mem r (by decide))
      intro k hk
      cases k with
      | zero => exact ⟨rfl, r, rfl⟩
      | succ k => exact hnone k hk

/-! ## Sessions -/

/-- A request to a generator. -/
inductive Call where
  /-- Take a line under a number. -/
  | line (n : Int) (text : Text)
  /-- Complete the program and hand it out. -/
  | program
deriving DecidableEq, Repr

/-- What a line notes: the coefficient of its instruction, under the index of the next step. -/
def Generator.notes (g : Generator) (text : Text) : List (Nat × Int) :=
  match Instruction.ofLine text with
  | .ok (some i) => if i.coef = 0 then [] else [(g.steps.length, i.coef)]
  | _ => []

/-- A generator and the coefficients noted so far, each under the index of its step. -/
structure Session where
  generator : Generator
  noted : List (Nat × Int)
deriving DecidableEq, Repr

theorem ShiftMode.code_le (mode : ShiftMode) : mode.code ≤ 3 := by
  cases mode <;> decide

namespace Session

/-- The session before the first call. -/
def initial : Session :=
  ⟨.initial, []⟩

/-- Answers a call. -/
def call (s : Session) : Call → Session
  | .line n text => ⟨s.generator.line n text, s.noted ++ s.generator.notes text⟩
  | .program => ⟨s.generator.finish, s.noted⟩

/-- The session after the given calls. -/
def run (calls : List Call) : Session :=
  calls.foldl call initial

theorem run_append (calls later : List Call) : run (calls ++ later) = later.foldl call (run calls) :=
  List.foldl_append

theorem run_append_singleton (calls : List Call) (c : Call) : run (calls ++ [c]) = (run calls).call c := by
  rw [run, List.foldl_append]
  rfl

/-- What every call keeps holds after all calls. -/
theorem run_induction {P : Session → Prop} (h0 : P initial) (hcall : ∀ s c, P s → P (s.call c))
    (calls : List Call) : P (run calls) := by
  induction calls using List.reverseRecOn with
  | nil => exact h0
  | append_singleton calls c ih =>
    rw [run_append_singleton]
    exact hcall _ c ih

/-- What the empty program has, and empty steps and blocks at the right parity keep, holds of the steps
after all calls. -/
theorem steps_run_induction {P : Program → Prop} (hnop : ∀ p, P p → P (p ++ [Step.nop]))
    (hblock : ∀ (p : Program) (i : Instruction) (input : Input) (mode : ShiftMode),
      (i.needsOdd = true → p.length % 2 = 1) → P p → P (p ++ i.block input mode))
    (h0 : P []) (calls : List Call) : P (run calls).generator.steps := by
  apply @run_induction fun s => P s.generator.steps
  · exact h0
  · intro s c h
    cases c with
    | line n text => exact Generator.steps_line_induction hnop hblock s.generator n text h
    | program =>
      show P s.generator.finish.steps
      unfold Generator.finish
      split
      · exact h
      · exact hnop _ h

/-! ## The notes -/

/-- The notes of a line are the entries of the steps that it adds. -/
theorem weights_line (g : Generator) (n : Int) (text : Text) :
    (g.line n text).steps.weights = g.steps.weights ++ g.notes text := by
  unfold Generator.notes
  split
  · next i hi =>
    rw [Generator.line_eq_execute hi, Generator.steps_execute, Program.weights, List.append_assoc,
      Program.weightsFrom_append, Nat.zero_add]
    congr 1
    split
    · next hcoef =>
      apply Program.weightsFrom_eq_nil
      intro s hs
      rcases List.mem_append.1 hs with hs | hs
      · rw [Generator.eq_nop_of_mem_filler hs]
        rfl
      · exact Instruction.coef_eq_zero_of_mem_block hcoef hs
    · next hcoef =>
      -- a multiplication is one step without a filler
      obtain ⟨m, rfl, hm⟩ := Instruction.eq_mac_of_coef_ne_zero hcoef
      show (if m.factor.coef = 0 then [] else [(g.steps.length, m.factor.coef)]) ++ [] = _
      rw [List.append_nil, hm, if_neg hcoef]
  · next hi =>
    rcases g.steps_line n text with hs | ⟨i, hok, -⟩
    · rw [hs, List.append_nil]
    · exact absurd hok (hi i)

/-- Padding adds no coefficient. -/
theorem weights_finish (g : Generator) : g.finish.steps.weights = g.steps.weights := by
  unfold Generator.finish
  split
  · rfl
  · show Program.weightsFrom 0 (g.steps ++ [.nop]) = g.steps.weights
    rw [Program.weightsFrom_append]
    exact List.append_nil _

/-- The notes are the coefficients of the program, whatever has happened since they were written. -/
theorem noted_run (calls : List Call) : (run calls).noted = (run calls).generator.steps.weights := by
  apply @run_induction fun s => s.noted = s.generator.steps.weights
  · rfl
  · intro s c h
    cases c with
    | line n text =>
      show s.noted ++ s.generator.notes text = (s.generator.line n text).steps.weights
      rw [weights_line, h]
    | program =>
      show s.noted = s.generator.finish.steps.weights
      rw [weights_finish, h]

/-! ## The lines of a source -/

/-- The calls that take the lines of a source, numbered from one. -/
def lineCalls (lines : List Text) : List Call :=
  (lines.zipIdx 1).map fun (text, n) => .line n text

/-- Taking the lines one after another leads to the generator behind them. -/
theorem generator_run_lineCalls (lines : List Text) : (run (lineCalls lines)).generator = .taken lines := by
  have hcalls : ∀ (lines : List Text) (n : Nat) (s : Session),
      (((lines.zipIdx n).map fun (text, k) => Call.line k text).foldl call s).generator =
        s.generator.takeLines n lines := by
    intro lines
    induction lines with
    | nil =>
      intro n s
      rfl
    | cons text lines ih =>
      intro n s
      exact ih (n + 1) (s.call (.line n text))
  exact hcalls lines 1 initial

/-! ## What holds after any calls -/

/-- The steps after any calls are generated. -/
theorem generated_run (calls : List Call) : (run calls).generator.steps.Generated := by
  refine steps_run_induction (fun p hp => hp.append_nop) ?_ Program.Generated.nil calls
  intro p i input mode hodd hp
  exact hp.append_block i input mode hodd

/-- The loads after any calls stand apart. -/
theorem loadsApart_run (calls : List Call) : (run calls).generator.steps.LoadsApart := by
  refine steps_run_induction (fun p hp => hp.append .nop) ?_ ?_ calls
  · intro p i input mode _ hp
    exact hp.append (i.loadsApart_block input mode)
  · exact .of_not_mrd fun s hs => absurd hs List.not_mem_nil

/-- After any calls, a step with a coefficient multiplies by it and writes nothing. -/
theorem weighted_run (calls : List Call) :
    ∀ s ∈ (run calls).generator.steps, s.coef ≠ 0 → s.Weighted := by
  refine @steps_run_induction (fun p => ∀ s ∈ p, s.coef ≠ 0 → s.Weighted) ?_ ?_ ?_ calls
  · intro p hp s hs hne
    rcases List.mem_append.1 hs with hs | hs
    · exact hp s hs hne
    · rw [List.mem_singleton.1 hs] at hne
      exact absurd rfl hne
  · intro p i input mode _ hp s hs hne
    rcases List.mem_append.1 hs with hs | hs
    · exact hp s hs hne
    · exact i.weighted_block input mode s hs hne
  · exact fun s hs => absurd hs List.not_mem_nil

/-- After any calls, the table is built from the notes in any order. -/
theorem table_run (calls : List Call) {entries : List (Nat × Int)} (h : entries.Perm (run calls).noted) :
    denseTable? (run calls).generator.finish.steps.length entries =
      some (run calls).generator.finish.steps.coefs := by
  apply Program.denseTable?_weights
  rw [weights_finish, ← noted_run]
  exact h

end Session

end Microcode
