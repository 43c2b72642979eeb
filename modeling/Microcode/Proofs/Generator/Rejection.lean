import Microcode.Proofs.Compile.Diagnostics
import Microcode.Proofs.Generator.Workspace

/-!
# Rejected lines

A line that is rejected adds one diagnostic and changes nothing else, although its directive is handled effect by
effect and only the steps are cut back afterwards (`Session.line?_workspace`).

Diagnostics are never looked at again. So two sessions that differ in their diagnostics only stay so
(`Session.SameWork.call`) and hand out the same programs (`Session.SameWork.answers`): what comes after a rejected
line goes on as if the line had not been there.
-/

namespace Microcode

/-- The diagnostics of a call. -/
def Call.diagnostics : Call → List Diagnostic
  | .line n text => (Generator.initial.line n text).errors
  | .program => []

namespace Session

/-- Sessions that differ in their diagnostics at most. -/
structure SameWork (s t : Session) : Prop where
  steps : s.generator.steps = t.generator.steps
  noted : s.noted = t.noted
  madrs : s.generator.madrs = t.generator.madrs
  input : s.generator.input = t.generator.input
  mode : s.generator.mode = t.generator.mode

/-- Every call adds its own diagnostics behind the others. -/
theorem errors_call (s : Session) (c : Call) :
    (s.call c).generator.errors = s.generator.errors ++ c.diagnostics := by
  cases c with
  | line n text => exact Generator.errors_line_eq_append s.generator n text
  | program =>
    show s.generator.finish.errors = s.generator.errors ++ []
    rw [Generator.errors_finish, List.append_nil]

/-- The diagnostics of calls are those of each of them. -/
theorem errors_run_append (calls later : List Call) :
    (run (calls ++ later)).generator.errors = (run calls).generator.errors ++ later.flatMap Call.diagnostics := by
  induction later using List.reverseRecOn with
  | nil => rw [List.append_nil, List.flatMap_nil, List.append_nil]
  | append_singleton later c ih =>
    rw [← List.append_assoc, run_append_singleton, errors_call, ih, List.flatMap_append, List.append_assoc,
      List.flatMap_singleton]

/-! ## Going on without a diagnostic -/

namespace SameWork

variable {s t u : Session}

theorem symm (h : s.SameWork t) : t.SameWork s :=
  ⟨h.steps.symm, h.noted.symm, h.madrs.symm, h.input.symm, h.mode.symm⟩

theorem trans (h : s.SameWork t) (h' : t.SameWork u) : s.SameWork u :=
  ⟨h.steps.trans h'.steps, h.noted.trans h'.noted, h.madrs.trans h'.madrs, h.input.trans h'.input,
    h.mode.trans h'.mode⟩

/-- What two sessions are that have done the same work. -/
theorem exists_eq (h : s.SameWork t) :
    ∃ errors, s = { t with generator := { t.generator with errors } } := by
  obtain ⟨⟨steps, madrs, input, mode, errors⟩, noted⟩ := s
  obtain ⟨⟨_, _, _, _, _⟩, _⟩ := t
  obtain ⟨rfl, rfl, rfl, rfl, rfl⟩ := h
  exact ⟨errors, rfl⟩

end SameWork

/-- A line changes nothing but the diagnostics, or it executes an instruction, which does not look at them. -/
theorem sameWork_or_execute (n : Int) (text : Text) :
    (∀ s : Session, (s.call (.line n text)).SameWork s) ∨
      ∃ i, Instruction.problem? text = none ∧ ∀ s : Session, s.call (.line n text) = s.execute i := by
  unfold call Generator.line Generator.lineWith Generator.notes Instruction.problem? Instruction.ofLine
  dsimp only
  cases Instruction.ofLineWith DirectiveKind.all text with
  | error problem => exact .inl fun s => ⟨rfl, List.append_nil _, rfl, rfl, rfl⟩
  | ok taken =>
    cases taken with
    | none => exact .inl fun s => ⟨rfl, List.append_nil _, rfl, rfl, rfl⟩
    | some i => exact .inr ⟨i, rfl, fun s => rfl⟩

/-- A line with a problem changes nothing but the diagnostics. -/
theorem sameWork_of_problem {text : Text} {problem : LineProblem} (h : Instruction.problem? text = some problem)
    (s : Session) (n : Int) : (s.call (.line n text)).SameWork s := by
  rcases sameWork_or_execute n text with hsame | ⟨i, hnone, -⟩
  · exact hsame s
  · rw [hnone] at h
    exact Option.noConfusion rfl (heq_of_eq h)

namespace SameWork

variable {s t : Session}

/-- An instruction does the same work after the same work. -/
theorem execute (h : s.SameWork t) (i : Instruction) : (s.execute i).SameWork (t.execute i) := by
  obtain ⟨errors, rfl⟩ := h.exists_eq
  cases i <;> exact ⟨rfl, rfl, rfl, rfl, rfl⟩

theorem finish (h : s.SameWork t) : (s.call .program).SameWork (t.call .program) := by
  obtain ⟨errors, rfl⟩ := h.exists_eq
  unfold Session.call Generator.finish
  dsimp only
  split <;> exact ⟨rfl, rfl, rfl, rfl, rfl⟩

/-- A call does the same work after the same work. -/
theorem call (h : s.SameWork t) (c : Call) : (s.call c).SameWork (t.call c) := by
  cases c with
  | program => exact h.finish
  | line n text =>
    rcases sameWork_or_execute n text with hsame | ⟨i, -, hexecute⟩
    · exact ((hsame s).trans h).trans (hsame t).symm
    · rw [hexecute, hexecute]
      exact h.execute i

/-- So do all calls. -/
theorem foldl (h : s.SameWork t) (calls : List Call) :
    (calls.foldl Session.call s).SameWork (calls.foldl Session.call t) := by
  induction calls generalizing s t with
  | nil => exact h
  | cons c calls ih => exact ih (h.call c)

/-- The program that is handed out has no diagnostics in it. -/
theorem answer (h : s.SameWork t) (c : Call) : s.answer c = t.answer c := by
  cases c with
  | line n text => rfl
  | program =>
    have hsteps : s.generator.finish.steps = t.generator.finish.steps := h.finish.steps
    show [s.listing] = [t.listing]
    rw [listing, listing, hsteps, h.madrs]

/-- The same programs are handed out after the same work. -/
theorem answers (h : s.SameWork t) (calls : List Call) : s.answers calls = t.answers calls := by
  induction calls generalizing s t with
  | nil => rfl
  | cons c calls ih => rw [Session.answers, Session.answers, h.answer, ih (h.call c)]

end SameWork

/-! ## Rejected lines -/

/-- **A rejected line leaves no trace.** Whatever a generator has been called for, a line is handled effect by effect
to the state that it has after the line. The line adds no diagnostic; or it adds a single one at the end, with its
number, and leaves the steps, the coefficients, the address table, the selector and the mode as they were. In the
latter case any later calls do the same work, hand out the same programs and add the same diagnostics as without the
line. -/
theorem rejected_line_leaves_no_trace (before : List Call) (n : Int) (text : Text) :
    (run before).workspace.line? n text = some (run (before ++ [.line n text])).workspace ∧
    ((run (before ++ [.line n text])).generator.errors = (run before).generator.errors ∨
      ∃ d : Diagnostic, d.line = n ∧
        (run (before ++ [.line n text])).generator.errors = (run before).generator.errors ++ [d] ∧
        (run (before ++ [.line n text])).SameWork (run before) ∧
        ∀ later : List Call,
          (run (before ++ .line n text :: later)).SameWork (run (before ++ later)) ∧
          (run (before ++ [.line n text])).answers later = (run before).answers later ∧
          ∃ added, (run (before ++ later)).generator.errors = (run before).generator.errors ++ added ∧
            (run (before ++ .line n text :: later)).generator.errors =
              (run before).generator.errors ++ d :: added) := by
  have herrors : (run (before ++ [.line n text])).generator.errors =
      (run before).generator.errors ++ (Generator.initial.line n text).errors := by
    rw [errors_run_append, List.flatMap_singleton]
    rfl
  refine ⟨?_, ?_⟩
  · rw [run_append_singleton, line?_workspace]
  -- whether the line is rejected is a matter of its text alone
  cases hproblem : Instruction.problem? text with
  | none =>
    left
    rw [herrors, Generator.errors_initial_line, hproblem]
    exact List.append_nil _
  | some problem =>
    right
    have hown : (Generator.initial.line n text).errors = [⟨n, problem.message⟩] := by
      rw [Generator.errors_initial_line, hproblem]
      rfl
    have hsame : (run (before ++ [.line n text])).SameWork (run before) := by
      rw [run_append_singleton]
      exact sameWork_of_problem hproblem (run before) n
    refine ⟨⟨n, problem.message⟩, rfl, ?_, hsame, ?_⟩
    · rw [herrors, hown]
    intro later
    refine ⟨?_, hsame.answers later, later.flatMap Call.diagnostics, errors_run_append before later, ?_⟩
    · have hwith : run (before ++ .line n text :: later) = later.foldl call (run (before ++ [.line n text])) := by
        rw [List.append_cons, run_append (before ++ [Call.line n text])]
      rw [hwith, run_append before later]
      exact hsame.foldl later
    · rw [errors_run_append, List.flatMap_cons, Call.diagnostics, hown]
      rfl

end Session

end Microcode
