import Microcode.Compile
import Microcode.Proofs.Generator.Discipline

/-!
# The schedule of a compiled program

`generated` is the program of a source before the passes and `emitted` the one after them;
`compile_eq_ok_iff` says when compiling succeeds with it. Such a program is `Scheduled`: it has the timing
of memory accesses that the signal processor needs, whatever the passes have moved or dropped.
-/

namespace Microcode

open Word Program

/-- The program of a source before the passes. -/
def generated (source : Text) : Program :=
  (Generator.ofLines (preprocess source).lines).steps

/-- The program of a source after all passes. -/
def emitted (source : Text) : Program :=
  (generated source).optimize

/-- The result that lists the emitted program, after the address table of the source. -/
def listed (source : Text) : Compiled :=
  ⟨Listing.madrsText (Generator.ofLines (preprocess source).lines).madrs ++
    Listing.programText (emitted source), (emitted source).length⟩

theorem eq_ok_of_toOption {ε α : Type} {x : Except ε α} {a : α} (h : x.toOption = some a) : x = .ok a := by
  cases x with
  | error e => exact Option.noConfusion rfl (heq_of_eq h)
  | ok b => rw [Option.some.inj h]

/-- Compiling succeeds iff there is no diagnostic and the emitted program fits. -/
theorem compile_eq_ok_iff {source : Text} {c : Compiled} :
    compile source = .ok c ↔
      (preprocess source).errors = [] ∧ (Generator.ofLines (preprocess source).lines).errors = [] ∧
      (emitted source).length ≤ maxSteps ∧ c = listed source := by
  unfold compile Preprocessed.compile
  dsimp only
  by_cases he : ((preprocess source).errors ++
      (Generator.ofLines (preprocess source).lines).errors).isEmpty = true
  · rw [if_pos he, show (Generator.ofLines (preprocess source).lines).steps.optimize = emitted source from rfl,
      assemble]
    rw [List.isEmpty_iff, List.append_eq_nil_iff] at he
    -- without diagnostics only the length can be in the way
    by_cases hlen : maxSteps < (emitted source).length
    · rw [if_pos hlen]
      constructor
      · intro h
        exact Except.noConfusion rfl rfl (heq_of_eq h)
      · rintro ⟨-, -, hle, -⟩
        omega
    · rw [if_neg hlen, Except.ok.injEq]
      constructor
      · rintro rfl
        exact ⟨he.1, he.2, by omega, rfl⟩
      · rintro ⟨-, -, -, rfl⟩
        rfl
  · rw [if_neg he]
    rw [List.isEmpty_iff, List.append_eq_nil_iff] at he
    constructor
    · intro h
      exact Except.noConfusion rfl rfl (heq_of_eq h)
    · rintro ⟨h1, h2, -, -⟩
      exact absurd ⟨h1, h2⟩ he

/-- The schedule of a program that the signal processor can execute. A step that does not exist has no
fields. -/
structure Program.Scheduled (p : Program) : Prop where
  even : p.length % 2 = 0
  fits : p.length ≤ maxSteps
  odd : ∀ k, (p.wordAt k).has .mrd = true ∨ (p.wordAt k).has .mwt = true → k % 2 = 1
  exclusive : ∀ k, ¬ ((p.wordAt k).has .mrd = true ∧ (p.wordAt k).has .mwt = true)
  /-- What is read is committed two steps later, and nothing else is. -/
  read : ∀ k, (p.wordAt k).has .mrd = true ↔ k + 2 < p.length ∧ (p.wordAt (k + 2)).has .iwt = true
  commit : ∀ k, (p.wordAt k).has .iwt = true → 2 ≤ k ∧ (p.wordAt (k - 2)).has .mrd = true
  address : ∀ k, (p.wordAt k).has .mrd = false → (p.wordAt k).has .mwt = false →
    ∀ f ∈ [Field.table, .nxadr, .adreb, .masa, .nofl], (p.wordAt k).get f = 0
  register : ∀ k, (p.wordAt k).has .iwt = false → (p.wordAt k).get .iwa = 0
  used : ∀ k, (p.wordAt k).bits &&& ~~~Word.used.bits = 0

/-- The discipline by index, with the two facts about the length. -/
theorem Program.Disciplined.scheduled {p : Program} (h : p.Disciplined) (heven : p.length % 2 = 0)
    (hfits : p.length ≤ maxSteps) : p.Scheduled := by
  have hpair := (timed_iff.1 h.timed).2.2.2
  refine ⟨heven, hfits, fun k => h.timed.odd, fun k => (h.orderly_wordAt k).exclusive, ?_,
    fun k => h.timed.commit, ?_, fun k => (h.orderly_wordAt k).register, ?_⟩
  · intro k
    rw [← hpair k]
    constructor
    · intro hiwt
      exact ⟨lt_length_of_has hiwt, hiwt⟩
    · exact fun hiwt => hiwt.2
  · intro k hr hw f hf
    have hacc : (p.wordAt k).accessesMemory = false := by
      rw [accessesMemory, hr, hw]
      rfl
    exact (h.orderly_wordAt k).address hacc f hf
  · intro k
    exact congrArg Word.bits (h.orderly_wordAt k).clear_all

/-- **Every compiled program is scheduled.** The result of compiling lists the emitted program, and that
program has the timing that the signal processor needs. -/
theorem compile_scheduled {source : Text} {c : Compiled} (h : compile source = .ok c) :
    c = listed source ∧ (emitted source).Scheduled := by
  obtain ⟨-, -, hfits, hc⟩ := compile_eq_ok_iff.1 h
  refine ⟨hc, ?_⟩
  have heven : (emitted source).length % 2 = 0 := by
    rw [emitted, length_optimize_mod_two]
    exact Generator.length_steps_finish_even _
  exact (Generator.generated_ofLines _).disciplined.optimize.scheduled heven hfits

/-- Two loads, the second of which is moved onto the commit of the first. -/
theorem compile_scheduled_two_loads :
    compile (ascii "LD madrs:1, mems:2\nLD madrs:4/s, mems:3") =
      .ok ⟨ascii "MPRO[0] =\nMPRO[1] = MRD MASA\nMPRO[2] =\nMPRO[3] = IWT IWA:2 MRD MASA:4 ADREB\n" ++
        ascii "MPRO[4] =\nMPRO[5] = IWT IWA:3\n", 6⟩ ∧
    (emitted (ascii "LD madrs:1, mems:2\nLD madrs:4/s, mems:3")).Scheduled := by
  refine ⟨?compiled, (compile_scheduled ?compiled).2⟩
  case compiled =>
    apply eq_ok_of_toOption
    decide +kernel

end Microcode
