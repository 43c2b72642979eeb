import Microcode.Proofs.Compile.Diagnostics
import Microcode.Proofs.Compile.RoundTrip
import Microcode.Proofs.Generator.Workspace
import Microcode.Proofs.Program.Bounds
import Microcode.Proofs.Source.Fidelity

/-!
# How compiling ends

`compile?` compiles a source in tables, through every step that could go wrong: each index of generation, of the
passes and of formatting is tested for being in range, and the passes and the formatting may refuse a table whose
lists have different lengths (`CompileFailure`).

None of this happens. The tables are those of the program (`compile?_eq`), so a source is compiled or refused with
diagnostics. These are about lines of the source, unless the program is too long.
-/

namespace Microcode

open Program

/-- Why compiling stops. -/
inductive CompileFailure where
  | diagnostics (ds : List Diagnostic)
  /-- The passes refuse the table. -/
  | optimize (cause : SizeMismatch)
  /-- The listing cannot be written. -/
  | format (cause : SizeMismatch)
deriving DecidableEq, Repr

/-! ## Formatting -/

namespace Listing

/-- Writes the lines of a step, whose coefficient is looked up. -/
def appendStep? (coefs : List Int) (text : Text) : Word × Nat → Option Text
  | (w, i) => do
    let c ← coefs[i]?
    return text ++ stepText ⟨w, c⟩ i

/-- The text of a listing, written step by step. -/
def render? (l : Listing) : Option (Except SizeMismatch Text) :=
  if l.table.words.length ≠ l.table.coefs.length then
    some (.error ⟨l.table.words.length, l.table.coefs.length⟩)
  else do
    let text ← l.table.words.zipIdx.foldlM (appendStep? l.table.coefs) (madrsText l.madrs)
    return .ok text

/-- Every word behind an index finds its coefficient. -/
theorem foldlM_appendStep? (done rest : Program) (text : Text) :
    (rest.words.zipIdx done.length).foldlM (appendStep? (done ++ rest : Program).coefs) text =
      some (text ++ (rest.zipIdx done.length).flatMap fun (s, i) => stepText s i) := by
  induction rest generalizing done text with
  | nil => exact congrArg some (List.append_nil text).symm
  | cons s rest ih =>
    have hcoef : (done ++ s :: rest : Program).coefs[done.length]? = some s.coef := by
      rw [coefs, List.getElem?_map, List.getElem?_append_right (Nat.le_refl _), Nat.sub_self]
      rfl
    have h := ih (done ++ [s]) (text ++ stepText s done.length)
    rw [List.append_assoc, List.length_append] at h
    rw [List.zipIdx_cons, List.flatMap_cons, ← List.append_assoc]
    show (appendStep? (done ++ s :: rest : Program).coefs text (s.word, done.length)).bind _ = _
    rw [appendStep?, hcoef]
    exact h

/-- No index of the formatting is out of range. -/
theorem render?_ofProgram (madrs : List Text) (p : Program) :
    render? ⟨madrs, .ofProgram p⟩ = some (.ok (madrsText madrs ++ programText p)) := by
  have htext : (Table.ofProgram p).words.zipIdx.foldlM (appendStep? (Table.ofProgram p).coefs) (madrsText madrs) =
      some (madrsText madrs ++ programText p) :=
    foldlM_appendStep? [] p (madrsText madrs)
  rw [render?, if_neg (not_not_intro (Table.length_words_eq_length_coefs p)), htext]
  rfl

end Listing

/-! ## Compiling in tables -/

/-- Compiles a source in tables, with a queue for the slots of moved work. -/
def compile? {Q : Type*} (queue : SlotQueue Q) (source : Text) : Option (Except CompileFailure Compiled) := do
  let (taken, _) ← Workspace.initial.run? (Session.lineCalls (preprocess source).lines)
  let (completed, listing) ← taken.program?
  let errors := (preprocess source).errors ++ completed.errors
  if errors.isEmpty then
    match ← listing.table.optimize? queue with
    | .error cause => return .error (.optimize cause)
    | .ok table =>
      if maxSteps < table.words.length then return .error (.diagnostics [tooLong table.words.length])
      else match ← Listing.render? ⟨listing.madrs, table⟩ with
        | .error cause => return .error (.format cause)
        | .ok text => return .ok ⟨text, table.words.length⟩
  else return .error (.diagnostics errors)

/-- Taking the lines of a source in tables and completing its program gives the tables of the generator. -/
theorem generated_in_tables (lines : List Text) :
    ∃ taken answers completed, Workspace.initial.run? (Session.lineCalls lines) = some (taken, answers) ∧
      taken.program? = some (completed, ⟨(Generator.ofLines lines).madrs, .ofProgram (Generator.ofLines lines).steps⟩) ∧
      completed.errors = (Generator.ofLines lines).errors := by
  have hfinish : (Session.run (Session.lineCalls lines)).generator.finish = Generator.ofLines lines := by
    rw [Session.generator_run_lineCalls, ← Generator.ofLines_eq_finish]
  have hlisting : (Session.run (Session.lineCalls lines)).listing =
      ⟨(Generator.ofLines lines).madrs, .ofProgram (Generator.ofLines lines).steps⟩ := by
    rw [Session.listing, ← hfinish, Generator.madrs_finish]
  have herrors : ((Session.run (Session.lineCalls lines)).call .program).workspace.errors =
      (Generator.ofLines lines).errors :=
    congrArg Generator.errors hfinish
  have hrun := Session.run?_workspace [] (Session.lineCalls lines)
  have hprogram := Session.program?_workspace (Session.lineCalls lines)
  rw [hlisting] at hprogram
  exact ⟨_, _, _, hrun, hprogram, herrors⟩

/-- Compiling in tables is compiling: no index is out of range, and no table is refused. -/
theorem compile?_eq {Q : Type*} (queue : SlotQueue Q) (source : Text) :
    compile? queue source = some ((compile source).mapError .diagnostics) := by
  obtain ⟨taken, answers, completed, hrun, hprogram, herrors⟩ := generated_in_tables (preprocess source).lines
  have hlength : (Table.ofProgram (emitted source)).words.length = (emitted source).length :=
    Table.length_words_ofProgram _
  have hemitted : (Generator.ofLines (preprocess source).lines).steps.optimize = emitted source := rfl
  simp only [compile?, hrun, hprogram, herrors, Table.optimize?_ofProgram, Listing.render?_ofProgram, hemitted, hlength,
    Option.bind_eq_bind, Option.bind_some]
  rw [compile, Preprocessed.compile, hemitted, assemble]
  split
  · split <;> rfl
  · rfl

/-! ## Diagnostics of a source -/

/-- The diagnostics of lines are about these lines. -/
theorem Generator.line_of_mem_ownErrors {n : Nat} {lines : List Text} {d : Diagnostic}
    (h : d ∈ ownErrors n lines) : n ≤ d.line ∧ d.line < n + lines.length := by
  obtain ⟨⟨text, k⟩, hmem, hd⟩ := List.mem_flatMap.1 h
  dsimp only at hd
  rw [errors_initial_line] at hd
  obtain ⟨problem, -, rfl⟩ := List.mem_map.1 hd
  have hk := List.mem_zipIdx hmem
  dsimp only
  omega

/-- Preprocessing keeps the number of lines. -/
theorem length_lines_preprocess (source : Text) : (preprocess source).lines.length = source.lines.length := by
  have hlines : (preprocess source).lines = (Preprocess.results source).map (·.output) := rfl
  rw [hlines, List.length_map, Preprocess.length_results, Text.length_lines]

/-- Every diagnostic of a source is about one of its lines. -/
theorem line_of_mem_sourceErrors {source : Text} {d : Diagnostic} (h : d ∈ sourceErrors source) :
    1 ≤ d.line ∧ d.line ≤ source.lines.length := by
  rcases List.mem_append.1 h with h | h
  · have hrange := Preprocess.line_in_range h
    rwa [Preprocess.length_results, ← Text.length_lines] at hrange
  · have hrange := Generator.line_of_mem_ownErrors h
    rw [length_lines_preprocess] at hrange
    omega

/-- A program that is too long is reported for the source as a whole, with its length. -/
theorem tooLong_eq (n : Nat) :
    tooLong n = ⟨0, ascii "Program too long: " ++ Text.ofNat n ++ ascii " steps, max 128"⟩ := by
  have hmax : ascii " steps, max 128" = ascii " steps, max " ++ Text.ofNat maxSteps := by
    decide
  rw [tooLong, hmax, List.append_assoc, List.append_assoc]

/-- **Compiling fails with diagnostics only.** Whatever the source is and whatever queue the slots are kept in, no index
is out of range and neither the passes nor the formatting refuse a table. The source is compiled; or there are
diagnostics, each about one of its lines; or there is a single one, about no line, that the program is too long. -/
theorem compile_fails_only_with_diagnostics {Q : Type*} (queue : SlotQueue Q) (source : Text) :
    compile? queue source = some ((compile source).mapError .diagnostics) ∧
    ((∃ c, compile source = .ok c) ∨
      (∃ ds, compile source = .error ds ∧ ds ≠ [] ∧ ∀ d ∈ ds, 1 ≤ d.line ∧ d.line ≤ source.lines.length) ∨
      ∃ n, 128 < n ∧
        compile source = .error [⟨0, ascii "Program too long: " ++ Text.ofNat n ++ ascii " steps, max 128"⟩]) := by
  refine ⟨compile?_eq queue source, ?_⟩
  cases h : compile source with
  | ok c => exact .inl ⟨c, rfl⟩
  | error ds =>
    right
    rcases compile_eq_error_iff.1 h with ⟨rfl, hne⟩ | ⟨-, hlong, rfl⟩
    · exact .inl ⟨_, rfl, hne, fun d => line_of_mem_sourceErrors⟩
    · exact .inr ⟨_, hlong, by rw [tooLong_eq]⟩

/-- A line that is no instruction, before one with a comment that is left open. -/
def brokenSource : Text :=
  ascii "JUMP\nMAC input, 1 /* open"

/-- With the slots in a list: what preprocessing has found is reported before what generation has found. -/
theorem compile_fails_only_with_diagnostics_broken :
    (compile brokenSource).mapError (·.map (·.line)) = .error [2, 1] ∧
    compile? SlotQueue.ofList brokenSource = some ((compile brokenSource).mapError .diagnostics) := by
  refine ⟨?_, (compile_fails_only_with_diagnostics SlotQueue.ofList brokenSource).1⟩
  decide +kernel

end Microcode
