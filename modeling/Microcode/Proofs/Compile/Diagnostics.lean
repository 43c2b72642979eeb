import Microcode.Proofs.Compile.Schedule
import Microcode.Proofs.Generator.Workspace

/-!
# Diagnostics line by line

A line that is not an instruction has one problem, and which one it is depends on the line alone
(`Generator.errors_line`). So the diagnostics of a source are those of its lines, each taken by itself on a
fresh generator: no line hides the problem of another one, and none causes it.

The same holds where a line is handled effect by effect (`Session.errors_line?`): what an earlier line has left in
the tables has no part in the diagnostics of a later one.

`compile_eq_error_iff` says exactly when compiling fails and with which list. Main statement:
`diagnostics_line_by_line`.
-/

namespace Microcode

open Program

/-- The problem of a line, if it has one. -/
def Instruction.problem? (text : Text) : Option LineProblem :=
  match ofLine text with
  | .error problem => some problem
  | .ok _ => none

namespace Generator

/-- A line adds the diagnostic of its problem and leaves the earlier diagnostics alone. -/
theorem errors_line (g : Generator) (n : Int) (text : Text) :
    (g.line n text).errors =
      g.errors ++ (Instruction.problem? text).toList.map fun problem => ⟨n, problem.message⟩ := by
  unfold line lineWith Instruction.problem? Instruction.ofLine
  cases Instruction.ofLineWith DirectiveKind.all text with
  | error problem => rfl
  | ok taken =>
    cases taken with
    | none => exact (List.append_nil _).symm
    | some i =>
      show (g.execute i).errors = g.errors ++ []
      rw [errors_execute, List.append_nil]

/-- The diagnostics of a line that a fresh generator takes. -/
theorem errors_initial_line (n : Int) (text : Text) :
    (initial.line n text).errors =
      (Instruction.problem? text).toList.map fun problem => ⟨n, problem.message⟩ := by
  rw [errors_line]
  rfl

/-- A line has at most one diagnostic. -/
theorem length_errors_initial_line_le (n : Int) (text : Text) :
    (initial.line n text).errors.length ≤ 1 := by
  rw [errors_initial_line, List.length_map]
  exact Option.length_toList_le

/-- What a line adds does not depend on what was before it. -/
theorem errors_line_eq_append (g : Generator) (n : Int) (text : Text) :
    (g.line n text).errors = g.errors ++ (initial.line n text).errors := by
  rw [errors_line, errors_initial_line]

/-- The diagnostics of lines from line `n` on, each of them taken by a fresh generator. -/
def ownErrors (n : Nat) (lines : List Text) : List Diagnostic :=
  (lines.zipIdx n).flatMap fun (text, k) => (initial.line k text).errors

/-- The diagnostics of the first line come first. -/
theorem ownErrors_cons (n : Nat) (text : Text) (lines : List Text) :
    ownErrors n (text :: lines) = (initial.line n text).errors ++ ownErrors (n + 1) lines := by
  unfold ownErrors
  rw [List.zipIdx_cons, List.flatMap_cons]

/-- A run of lines adds the diagnostics of its lines in their order. -/
theorem errors_takeLines (g : Generator) (n : Nat) (lines : List Text) :
    (g.takeLines n lines).errors = g.errors ++ ownErrors n lines := by
  induction lines generalizing g n with
  | nil => exact (List.append_nil _).symm
  | cons text lines ih =>
    calc (g.takeLines n (text :: lines)).errors
        = (g.line n text).errors ++ ownErrors (n + 1) lines := ih (g.line n text) (n + 1)
      _ = g.errors ++ ((initial.line n text).errors ++ ownErrors (n + 1) lines) := by
        rw [errors_line_eq_append, List.append_assoc]
      _ = g.errors ++ ownErrors n (text :: lines) := by rw [ownErrors_cons]

/-- The diagnostics of a source are those that its lines have by themselves. -/
theorem errors_ofLines_eq (lines : List Text) : (ofLines lines).errors = ownErrors 1 lines := by
  rw [ofLines_eq_finish, errors_finish, taken, errors_takeLines]
  exact List.nil_append _

end Generator

namespace Session

/-! ## Effect by effect -/

/-- A line that is handled effect by effect adds the diagnostics that it has on a fresh generator. -/
theorem errors_line? (s : Session) (n : Int) (text : Text) :
    ∃ tables, s.workspace.line? n text = some tables ∧
      tables.errors = s.workspace.errors ++ (Generator.initial.line n text).errors :=
  ⟨_, s.line?_workspace n text, Generator.errors_line_eq_append s.generator n text⟩

/-- Lines that are handled effect by effect leave the diagnostics that they have by themselves. -/
theorem errors_run?_lineCalls (lines : List Text) :
    ∃ tables, Workspace.initial.run? (lineCalls lines) = some (tables, []) ∧
      tables.errors = Generator.ownErrors 1 lines := by
  have hrun : Workspace.initial.run? (lineCalls lines) =
      some ((run (lineCalls lines)).workspace, (run []).answers (lineCalls lines)) :=
    run?_workspace [] (lineCalls lines)
  rw [answers_lineCalls] at hrun
  refine ⟨_, hrun, ?_⟩
  show (run (lineCalls lines)).generator.errors = Generator.ownErrors 1 lines
  rw [generator_run_lineCalls, Generator.taken, Generator.errors_takeLines]
  exact List.nil_append _

end Session

/-! ## Compiling -/

/-- All diagnostics of a source, in the order in which they are reported. -/
def sourceErrors (source : Text) : List Diagnostic :=
  (preprocess source).errors ++ Generator.ownErrors 1 (preprocess source).lines

/-- Compiling fails with all diagnostics of the source, or, if it has none, because the emitted program
does not fit. -/
theorem compile_eq_error_iff {source : Text} {ds : List Diagnostic} :
    compile source = .error ds ↔
      ds = sourceErrors source ∧ ds ≠ [] ∨
      sourceErrors source = [] ∧ maxSteps < (emitted source).length ∧
        ds = [tooLong (emitted source).length] := by
  have hall : (preprocess source).errors ++ (Generator.ofLines (preprocess source).lines).errors =
      sourceErrors source := by
    rw [Generator.errors_ofLines_eq]
    rfl
  have hsteps : (Generator.ofLines (preprocess source).lines).steps.optimize = emitted source := rfl
  unfold compile Preprocessed.compile
  dsimp only
  rw [hall, hsteps]
  cases hds : sourceErrors source with
  | cons d rest =>
    -- the list of the source is what is reported
    rw [List.isEmpty_cons, if_neg Bool.false_ne_true, Except.error.injEq]
    constructor
    · rintro rfl
      exact .inl ⟨rfl, List.cons_ne_nil d rest⟩
    · rintro (⟨rfl, -⟩ | ⟨hnil, -⟩)
      · rfl
      · exact absurd hnil (List.cons_ne_nil d rest)
  | nil =>
    rw [List.isEmpty_nil, if_pos rfl, assemble]
    split
    · next hlong =>
      rw [Except.error.injEq]
      constructor
      · rintro rfl
        exact .inr ⟨rfl, hlong, rfl⟩
      · rintro (⟨hds, hne⟩ | ⟨-, -, hds⟩)
        · exact absurd hds hne
        · exact hds.symm
    · next hfits =>
      constructor
      · intro h
        exact Except.noConfusion rfl rfl (heq_of_eq h)
      · rintro (⟨hds, hne⟩ | ⟨-, hlong, -⟩)
        · exact absurd hds hne
        · exact absurd hlong hfits

/-- **No diagnostic depends on another line.** The diagnostics of a list of lines are those that the lines
have on a fresh generator, none or one for each, put one after another. Whatever a generator has taken
before, a line adds just its own. And compiling a source with errors reports the diagnostics of
preprocessing and then exactly these of the preprocessed lines; a source without errors is refused only for
the length of its program. Nothing of this changes where lines are handled effect by effect: no line is refused an
index, and after any calls a line adds what it adds to fresh tables. -/
theorem diagnostics_line_by_line :
    (∀ lines : List Text, (Generator.ofLines lines).errors =
      (lines.zipIdx 1).flatMap fun (text, n) => (Generator.initial.line n text).errors) ∧
    (∀ (g : Generator) (n : Int) (text : Text), (Generator.initial.line n text).errors.length ≤ 1 ∧
      (g.line n text).errors = g.errors ++ (Generator.initial.line n text).errors) ∧
    (∀ (source : Text) (ds : List Diagnostic), compile source = .error ds ↔
      ds = sourceErrors source ∧ ds ≠ [] ∨
      sourceErrors source = [] ∧ maxSteps < (emitted source).length ∧
        ds = [tooLong (emitted source).length]) ∧
    (∀ lines : List Text, ∃ tables, Workspace.initial.run? (Session.lineCalls lines) = some (tables, []) ∧
      tables.errors = (lines.zipIdx 1).flatMap fun (text, n) => (Generator.initial.line n text).errors) ∧
    ∀ (n : Int) (text : Text), ∃ own, Workspace.initial.line? n text = some own ∧
      own.errors = (Generator.initial.line n text).errors ∧
      ∀ before : List Call, ∃ tables listings after,
        Workspace.initial.run? before = some (tables, listings) ∧ tables.line? n text = some after ∧
        after.errors = tables.errors ++ own.errors := by
  refine ⟨Generator.errors_ofLines_eq, ?_, ?_, Session.errors_run?_lineCalls, ?_⟩
  · intro g n text
    exact ⟨Generator.length_errors_initial_line_le n text, Generator.errors_line_eq_append g n text⟩
  · intro source ds
    exact compile_eq_error_iff
  · intro n text
    obtain ⟨own, hown, herrors⟩ := Session.initial.errors_line? n text
    refine ⟨own, hown, herrors, fun before => ?_⟩
    -- the tables after any calls are those of a session
    obtain ⟨after, hafter, hadded⟩ := (Session.run before).errors_line? n text
    refine ⟨_, _, after, Session.run?_workspace [] before, hafter, ?_⟩
    rw [hadded, herrors]
    rfl

end Microcode
