import Microcode.Proofs.Generator.Workspace

/-!
# What holds after any calls

Lines and requests for programs can come in any order. Whatever has been called for, the state is one that can go
on: coefficients belong to steps that multiply by them, memory is accessed at odd steps, loads stand apart, and the
table of coefficients can be built (`Session.sound_of_calls`).

The tables of a workspace are read off the steps, so the same holds of them (`Session.Sound.workspace`). Main
statement: `Session.sound_run`.
-/

namespace Microcode

open Word

/-- The state of a session that can go on. A step that does not exist has no fields. -/
structure Session.Sound (s : Session) : Prop where
  /-- A coefficient belongs to a step that exists and multiplies by it. -/
  noted : ∀ k c, (k, c) ∈ s.noted → k < s.generator.steps.length ∧ c ≠ 0 ∧ -4096 ≤ c ∧ c ≤ 4095 ∧
    (s.generator.steps.wordAt k).get .ysel = 1 ∧
    ∀ f ∈ [Field.twt, .ewt, .yrl, .adrl], (s.generator.steps.wordAt k).has f = false
  /-- No step has two coefficients. -/
  keys : (s.noted.map (·.1)).Nodup
  input : (s.generator.input : Nat) ≤ 49
  mode : s.generator.mode.code ≤ 3
  used : ∀ k, (s.generator.steps.wordAt k).bits &&& ~~~Word.used.bits = 0
  odd : ∀ k, (s.generator.steps.wordAt k).has .mrd = true ∨ (s.generator.steps.wordAt k).has .mwt = true →
    k % 2 = 1
  /-- A read is followed by an empty step and by a step that commits and does nothing else. -/
  load : ∀ k, (s.generator.steps.wordAt k).has .mrd = true →
    s.generator.steps[k + 1]? = some .nop ∧
      ∃ t, s.generator.steps[k + 2]? = some t ∧ t.coef = 0 ∧ t.word.has .iwt = true ∧
        ∀ f, f ≠ .iwt → f ≠ .iwa → t.word.get f = 0
  commit : ∀ k, (s.generator.steps.wordAt k).has .iwt = true →
    2 ≤ k ∧ (s.generator.steps.wordAt (k - 2)).has .mrd = true
  /-- Handing out a program puts every noted coefficient into the table, in any order, and the table has
  the coefficients of the steps. -/
  table : ∀ entries, entries.Perm s.noted →
    denseTable? s.generator.finish.steps.length entries = some s.generator.finish.steps.coefs

/-- The tables of a generator that can go on. -/
structure Workspace.Sound (s : Workspace) : Prop where
  /-- A coefficient belongs to a word that exists and multiplies by it. -/
  noted : ∀ k c, (k, c) ∈ s.noted → c ≠ 0 ∧ -4096 ≤ c ∧ c ≤ 4095 ∧
    ∃ w, s.words[k]? = some w ∧ w.get .ysel = 1 ∧
      ∀ f ∈ [Field.twt, .ewt, .yrl, .adrl], w.has f = false
  /-- No word has two coefficients. -/
  keys : (s.noted.map (·.1)).Nodup
  input : (s.input : Nat) ≤ 49
  mode : s.mode.code ≤ 3
  used : ∀ w ∈ s.words, w.bits &&& ~~~Word.used.bits = 0
  odd : ∀ k w, s.words[k]? = some w → w.has .mrd = true ∨ w.has .mwt = true → k % 2 = 1
  /-- A read is followed by an empty word and by a word that commits and does nothing else. -/
  load : ∀ k w, s.words[k]? = some w → w.has .mrd = true →
    s.words[k + 1]? = some 0 ∧
      ∃ u, s.words[k + 2]? = some u ∧ u.has .iwt = true ∧ ∀ f, f ≠ .iwt → f ≠ .iwa → u.get f = 0
  commit : ∀ k w, s.words[k]? = some w → w.has .iwt = true →
    2 ≤ k ∧ ∃ r, s.words[k - 2]? = some r ∧ r.has .mrd = true
  /-- A program can be handed out, and it does not matter in which order the coefficients are gone through. -/
  table : ∃ listing, ∀ entries, entries.Perm s.noted →
    ∃ t, { s with noted := entries }.program? = some (t, listing)

namespace Session

/-! ## Sessions -/

/-- A noted coefficient is that of a step which multiplies by it. -/
theorem weighted_of_mem_noted {calls : List Call} {k : Nat} {c : Int} (h : (k, c) ∈ (run calls).noted) :
    ∃ s, (run calls).generator.steps[k]? = some s ∧ s.coef = c ∧ c ≠ 0 ∧ s.Weighted := by
  rw [noted_run] at h
  obtain ⟨⟨s, hs, hcoef⟩, hne⟩ := Program.mem_weights_iff.1 h
  exact ⟨s, hs, hcoef, hne, weighted_run calls s (List.mem_of_getElem? hs) (hcoef ▸ hne)⟩

/-- A session can go on after any calls. -/
theorem sound_of_calls (calls : List Call) : (run calls).Sound := by
  have hgen := generated_run calls
  refine ⟨?_, ?_, Nat.le_of_lt_succ (run calls).generator.input.isLt, ShiftMode.code_le _, ?_,
    fun k => hgen.timed.odd, ?_, fun k => hgen.timed.commit, fun entries => table_run calls⟩
  · intro k c hkc
    obtain ⟨s, hs, rfl, hne, hw⟩ := weighted_of_mem_noted hkc
    have hlt : k < (run calls).generator.steps.length := (List.getElem?_eq_some_iff.1 hs).1
    have hword : (run calls).generator.steps.wordAt k = s.word := by
      rw [Program.wordAt, hs]
      rfl
    rw [hword]
    exact ⟨hlt, hne, hw.range.1, hw.range.2, hw.factor, hw.quiet⟩
  · rw [noted_run]
    exact Program.nodup_keys_weightsFrom 0 _
  · intro k
    exact congrArg Word.bits (hgen.disciplined.orderly_wordAt k).clear_all
  · intro k hk
    obtain ⟨hnext, r, hcommit⟩ := loadsApart_run calls k hk
    refine ⟨hnext, _, hcommit, rfl, has_iwt_commitWord r, ?_⟩
    intro f hiwt hiwa
    have hf : f ∉ commitFields := by
      simp only [commitFields, List.mem_cons, List.not_mem_nil, or_false, not_or]
      exact ⟨hiwt, hiwa⟩
    exact get_commitWord_of_not_mem r hf

/-! ## Tables -/

/-- The words of the tables are those of the steps. -/
theorem getElem?_words (s : Session) (k : Nat) :
    s.workspace.words[k]? = s.generator.steps[k]?.map (·.word) :=
  List.getElem?_map

/-- A word that has a field in the steps stands in the tables. -/
theorem getElem?_words_of_has {s : Session} {k : Nat} {f : Field} (h : (s.generator.steps.wordAt k).has f = true) :
    s.workspace.words[k]? = some (s.generator.steps.wordAt k) := by
  rw [getElem?_words]
  unfold Program.wordAt at h ⊢
  cases hs : s.generator.steps[k]? with
  | some t => rfl
  | none =>
    -- behind the last step there are no fields
    rw [hs] at h
    exact absurd ((has_zero f).symm.trans h) Bool.false_ne_true

/-- The words of the tables are found in the steps under the same index. -/
theorem wordAt_eq_of_words {s : Session} {k : Nat} {w : Word} (h : s.workspace.words[k]? = some w) :
    s.generator.steps.wordAt k = w := by
  rw [getElem?_words] at h
  obtain ⟨t, ht, rfl⟩ := Option.map_eq_some_iff.1 h
  rw [Program.wordAt, ht]
  rfl

/-- The tables of a session that can go on can go on. -/
theorem Sound.workspace {s : Session} (h : s.Sound) : s.workspace.Sound := by
  refine ⟨?_, h.keys, h.input, h.mode, ?_, ?_, ?_, ?_, ?_⟩
  · intro k c hkc
    obtain ⟨-, hne, hmin, hmax, hysel, hquiet⟩ := h.noted k c hkc
    have hhas : (s.generator.steps.wordAt k).has .ysel = true := has_iff.2 (by omega)
    exact ⟨hne, hmin, hmax, _, getElem?_words_of_has hhas, hysel, hquiet⟩
  · intro w hw
    obtain ⟨k, hk⟩ := List.mem_iff_getElem?.1 hw
    rw [← wordAt_eq_of_words hk]
    exact h.used k
  · intro k w hk hw
    rw [← wordAt_eq_of_words hk] at hw
    exact h.odd k hw
  · intro k w hk hw
    rw [← wordAt_eq_of_words hk] at hw
    obtain ⟨hnext, t, ht, -, hiwt, hrest⟩ := h.load k hw
    refine ⟨?_, t.word, ?_, hiwt, hrest⟩
    · rw [getElem?_words, hnext]
      rfl
    · rw [getElem?_words, ht]
      rfl
  · intro k w hk hw
    rw [← wordAt_eq_of_words hk] at hw
    obtain ⟨hle, hmrd⟩ := h.commit k hw
    exact ⟨hle, _, getElem?_words_of_has hmrd, hmrd⟩
  · refine ⟨s.listing, fun entries hperm => ?_⟩
    -- the coefficients go into a table for the padded steps
    have hlength : s.generator.finish.steps.words.length = s.generator.finish.steps.length :=
      List.length_map _
    refine ⟨{ s.workspace with words := s.generator.finish.steps.words, noted := entries }, ?_⟩
    unfold Workspace.program?
    dsimp only
    rw [← words_finish, hlength, h.table entries hperm]
    rfl

/-! ## Any calls -/

/-- **The state of a generator after any calls.** After lines and requests for programs in any order, every
noted coefficient is in range and belongs to a step that multiplies by it and writes nothing else, the
selector and the mode are in range, memory is accessed at odd steps, loads stand apart, and the table of
coefficients can be built. This holds of the steps, and of the tables that are filled effect by effect, with no index
out of range on the way. -/
theorem sound_run (calls : List Call) :
    (run calls).Sound ∧
      ∃ tables listings, Workspace.initial.run? calls = some (tables, listings) ∧ tables.Sound := by
  have hsound := sound_of_calls calls
  exact ⟨hsound, _, _, run?_workspace [] calls, hsound.workspace⟩

end Session

end Microcode
