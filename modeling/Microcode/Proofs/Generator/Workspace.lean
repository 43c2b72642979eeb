import Microcode.Listing
import Microcode.Proofs.Generator.Session

/-!
# Handling a line effect by effect

A workspace is the state of a generator in tables: the words of the steps in one, and the coefficients in
another, under the indices of their steps. A directive is handled there by an `Action`, which checks operands and
changes the workspace in turn. An action that is rejected leaves behind whatever it has changed so far. Afterwards
only the steps are cut back to what they were before the line, and every index and every cut is tested for being
in range (`Workspace.line?`, `Workspace.program?`).

The tables give what the generator gives. Every check comes before the first change (`Session.perform_handle`), so
nothing is left behind and the cut is for nothing (`Session.line?_workspace`); and no test for a range fails
(`Session.run?_workspace`).
-/

namespace Microcode

open Word

/-- A generator in tables. -/
structure Workspace where
  words : List Word
  /-- The coefficients, each under the index of its step. -/
  noted : List (Nat × Int)
  madrs : List Text
  input : Input
  mode : ShiftMode
  errors : List Diagnostic
deriving DecidableEq, Repr

/-- Changes of a workspace, up to a rejection. -/
abbrev Action := ExceptT Rejection (StateM Workspace)

namespace Workspace

/-- The workspace before the first line. -/
def initial : Workspace :=
  ⟨[], [], [], ⟨0, by decide⟩, .sat, []⟩

/-! ## Actions -/

/-- What an action leads to. A rejection keeps the changes before it. -/
def perform {α : Type} (action : Action α) (s : Workspace) : Except Rejection α × Workspace :=
  action.run.run s

/-- Goes on with the result of a check. -/
def require {α : Type} (check : Except Rejection α) : Action α :=
  ExceptT.mk (pure check)

/-- Adds a step and gives its index. -/
def emit (w : Word) : Action Nat := do
  let s ← get
  set { s with words := s.words ++ [w] }
  return s.words.length

/-- Adds an empty step if the next one would not be at an odd index. -/
def alignOdd : Action Unit := do
  let s ← get
  if s.words.length % 2 == 0 then
    let _ ← emit 0

/-- Notes the coefficient of a step. -/
def note (i : Nat) (c : Int) : Action Unit :=
  modify fun s => { s with noted := s.noted ++ [(i, c)] }

/-! ## Handling a directive -/

def handleInput (bank : Bank) (i : Int) : Action Unit := do
  let input ← require (bank.input i)
  modify fun s => { s with input }

def handleOutput (target : Output Int) : Action Unit := do
  let checked ← require target.check
  let s ← get
  let w := checked.word s.input s.mode
  let _ ← emit w
  if w.loadsAddressLate then
    let _ ← emit 0

def handleMac (x : Multiplicand Int) (y : Factor Int) (b : Option Summand) : Action Unit := do
  let m ← require (Mac.ofOperands x y b)
  let s ← get
  let i ← emit (m.step s.input).word
  if m.factor.coef ≠ 0 then note i m.factor.coef

def handleStore (noFloat : Bool) : Destination → Action Unit
  | .temp i =>
    if noFloat then throw .needsMemory
    else do
      let r ← require (checkTemp i)
      let s ← get
      let _ ← emit (((keepAccumulator.set .twt 1).set .twa r).set .shift s.mode.code)
  | .memory a => do
    let access ← require (Access.ofAddress noFloat a)
    alignOdd
    let s ← get
    let _ ← emit ((access.word.set .mwt 1).set .shift s.mode.code)

def handleLoad (noFloat : Bool) (a : Address) (register : Int) : Action Unit := do
  let access ← require (Access.ofAddress noFloat a)
  let r ← require (checkIndex "mems" memsCount register)
  alignOdd
  let _ ← emit (access.word.set .mrd 1)
  let _ ← emit 0
  let _ ← emit (((0 : Word).set .iwt 1).set .iwa r)

/-- Handles the directive that stands on a line. -/
def handle (line : Text) : Directive → Action Unit
  | .madrs _ _ => modify fun s => { s with madrs := s.madrs ++ [line] }
  | .input bank i => handleInput bank i
  | .output target => handleOutput target
  | .mac x y b => handleMac x.value y.value (b.map (·.value))
  | .smode mode => modify fun s => { s with mode }
  | .store noFloat destination => handleStore noFloat destination.value
  | .load noFloat address register => handleLoad noFloat address.value register

/-! ## Calls -/

/-- Adds a diagnostic. -/
def report (s : Workspace) (n : Int) (problem : LineProblem) : Workspace :=
  { s with errors := s.errors ++ [⟨n, problem.message⟩] }

/-- Cuts a list at an index, which has to be in range. -/
def cutAt? {α : Type} (xs : List α) (i : Nat) : Option (List α × List α) :=
  if i ≤ xs.length then some (xs.splitAt i) else none

/-- An index in range can be cut at. -/
theorem cutAt?_eq_some {α : Type} {xs : List α} {i : Nat} (h : i ≤ xs.length) :
    cutAt? xs i = some (xs.take i, xs.drop i) := by
  rw [cutAt?, if_pos h, List.splitAt_eq]

/-- Whether a trimmed line has nothing to execute. The first byte is looked at only if there is one. -/
def silent? (line : Text) : Option Bool :=
  if line.isEmpty then some true
  else do
    let first ← line.head?
    return first == '#'.toUInt8 || (ascii "//").isPrefixOf line

/-- The first byte is never looked at where there is none. -/
theorem silent?_eq (line : Text) : silent? line = some (Instruction.isSilent line) := by
  cases line with
  | nil => rfl
  | cons b line =>
    have hfirst : (ascii "#").isPrefixOf (b :: line) = (b == '#'.toUInt8) := by
      show ('#'.toUInt8 == b && List.isPrefixOf [] line) = (b == '#'.toUInt8)
      rw [List.isPrefixOf_nil_left, Bool.and_true, Bool.beq_comm]
    rw [Instruction.isSilent, hfirst]
    rfl

/-- Takes a line. Of the steps, those before the line are told from the added ones, and if the line is rejected, only
the former stay. -/
def line? (s : Workspace) (n : Int) (line : Text) : Option Workspace := do
  let text := line.trim
  if ← silent? text then return s
  else match Directive.read? DirectiveKind.all text with
    | none => return s.report n (.unhandled text)
    | some d =>
      let (outcome, t) := perform (handle text d) s
      let (earlier, _) ← cutAt? t.words s.words.length
      match outcome with
      | .ok () => return t
      | .error cause => return { t with words := earlier }.report n (.invalid text cause)

/-- Completes the program and hands it out, with all coefficients in a table. -/
def program? (s : Workspace) : Option (Workspace × Listing) := do
  let words := if s.words.length % 2 == 0 then s.words else s.words ++ [0]
  let coefs ← denseTable? words.length s.noted
  return ({ s with words }, ⟨s.madrs, ⟨words, coefs⟩⟩)

/-- Answers a call, with the program that is handed out. -/
def call? (s : Workspace) : Call → Option (Workspace × List Listing)
  | .line n text => (s.line? n text).map (·, [])
  | .program => s.program?.map fun (t, listing) => (t, [listing])

/-- Answers calls one after another, with the programs that are handed out. -/
def run? (s : Workspace) : List Call → Option (Workspace × List Listing)
  | [] => some (s, [])
  | c :: calls => do
    let (t, first) ← s.call? c
    let (u, rest) ← t.run? calls
    return (u, first ++ rest)

/-! ## What actions do -/

section Perform

variable {α β : Type} (s : Workspace)

/-- A check that fails ends the action with the state as it is. -/
theorem perform_require_bind (check : Except Rejection α) (next : α → Action β) :
    perform (require check >>= next) s =
      match check with
      | .ok a => perform (next a) s
      | .error cause => (.error cause, s) := by
  cases check <;> rfl

theorem perform_get_bind (next : Workspace → Action β) : perform (get >>= next) s = perform (next s) s := rfl

/-- The next part sees the word that is added. -/
theorem perform_emit_bind (w : Word) (next : Nat → Action β) :
    perform (emit w >>= next) s = perform (next s.words.length) { s with words := s.words ++ [w] } := rfl

theorem perform_note (i : Nat) (c : Int) :
    perform (note i c) s = (.ok (), { s with noted := s.noted ++ [(i, c)] }) := rfl

theorem perform_pure (a : α) : perform (pure a) s = (.ok a, s) := rfl

theorem perform_ite (c : Prop) [Decidable c] (first second : Action α) :
    perform (if c then first else second) s = if c then perform first s else perform second s := by
  split <;> rfl

/-- Aligning adds an empty step or nothing. -/
theorem perform_alignOdd_bind (next : Unit → Action β) :
    perform (alignOdd >>= next) s =
      perform (next ()) { s with words := s.words ++ if s.words.length % 2 == 0 then [0] else [] } := by
  unfold alignOdd
  rw [bind_assoc, perform_get_bind]
  split
  · rfl
  · rw [pure_bind, List.append_nil]

end Perform

end Workspace

/-! ## The tables of a session -/

namespace Session

open Workspace

/-- The tables of a session. -/
def workspace (s : Session) : Workspace where
  words := s.generator.steps.words
  noted := s.noted
  madrs := s.generator.madrs
  input := s.generator.input
  mode := s.generator.mode
  errors := s.generator.errors

/-- Executes an instruction and notes its coefficient. -/
def execute (s : Session) (i : Instruction) : Session :=
  ⟨s.generator.execute i, s.noted ++ if i.coef = 0 then [] else [(s.generator.steps.length, i.coef)]⟩

/-- There are as many words as steps. -/
theorem length_words (s : Session) : s.workspace.words.length = s.generator.steps.length :=
  List.length_map _

/-- An instruction that emits steps adds their words, after an empty one where it is needed, and notes its
coefficient. -/
theorem workspace_execute {i : Instruction} (hi : ∀ g : Generator, g.execute i = g.emit i) (s : Session) :
    (s.execute i).workspace =
      { s.workspace with
        words := s.workspace.words ++
          (if i.needsOdd && s.workspace.words.length % 2 == 0 then [0] else []) ++
          Program.words (i.block s.workspace.input s.workspace.mode)
        noted := s.workspace.noted ++ if i.coef = 0 then [] else [(s.workspace.words.length, i.coef)] } := by
  have hfiller : (s.generator.filler i).words =
      if i.needsOdd && s.workspace.words.length % 2 == 0 then [0] else [] := by
    rw [Generator.filler, length_words]
    split <;> rfl
  rw [← hfiller, length_words, execute, hi, Generator.emit]
  simp [workspace, Program.words]

/-- An output adds its step, and an empty one behind it if the address is late. -/
theorem perform_handleOutput (s : Session) (target : Output Int) :
    perform (handleOutput target) s.workspace =
      match target.check with
      | .ok checked => (.ok (), (s.execute (.output checked)).workspace)
      | .error cause => (.error cause, s.workspace) := by
  rw [handleOutput, perform_require_bind]
  cases target.check with
  | error cause => rfl
  | ok checked =>
    dsimp only
    rw [@workspace_execute (.output checked) fun _ => rfl, perform_get_bind, perform_emit_bind, perform_ite,
      perform_emit_bind, perform_pure, perform_pure]
    simp only [Instruction.needsOdd, Instruction.coef, Instruction.block]
    split <;> simp [Program.words, Step.ofWord, Step.nop]

/-- A multiplication adds its step and notes the coefficient of it. -/
theorem perform_handleMac (s : Session) (x : Multiplicand Int) (y : Factor Int) (b : Option Summand) :
    perform (handleMac x y b) s.workspace =
      match Mac.ofOperands x y b with
      | .ok m => (.ok (), (s.execute (.mac m)).workspace)
      | .error cause => (.error cause, s.workspace) := by
  rw [handleMac, perform_require_bind]
  cases Mac.ofOperands x y b with
  | error cause => rfl
  | ok m =>
    dsimp only
    rw [@workspace_execute (.mac m) fun _ => rfl, perform_get_bind, perform_emit_bind, perform_ite, perform_note,
      perform_pure]
    simp only [Instruction.needsOdd, Instruction.coef, Instruction.block]
    split <;> simp_all [Program.words]

/-- A store adds its step; one to memory is aligned before. -/
theorem perform_handleStore (s : Session) (noFloat : Bool) (target : Destination) :
    perform (handleStore noFloat target) s.workspace =
      match Instruction.ofStore noFloat target with
      | .ok i => (.ok (), (s.execute i).workspace)
      | .error cause => (.error cause, s.workspace) := by
  cases target with
  | temp i =>
    cases noFloat with
    | true => rfl
    | false =>
      rw [handleStore, Instruction.ofStore, if_neg Bool.false_ne_true, if_neg Bool.false_ne_true,
        perform_require_bind]
      cases checkTemp i with
      | error cause => rfl
      | ok r =>
        show _ = (Except.ok (), (s.execute (.storeTemp r)).workspace)
        rw [@workspace_execute (.storeTemp r) fun _ => rfl]
        simp only [perform_get_bind, perform_emit_bind, perform_pure]
        simp [Instruction.needsOdd, Instruction.coef, Instruction.block, Program.words, Step.ofWord]
  | memory a =>
    rw [handleStore, Instruction.ofStore, perform_require_bind]
    cases Access.ofAddress noFloat a with
    | error cause => rfl
    | ok access =>
      show _ = (Except.ok (), (s.execute (.store access)).workspace)
      rw [@workspace_execute (.store access) fun _ => rfl]
      simp only [perform_alignOdd_bind, perform_get_bind, perform_emit_bind, perform_pure]
      simp [Instruction.needsOdd, Instruction.coef, Instruction.block, Program.words, Step.ofWord]

/-- A load checks its address and its register before it is aligned, and adds three steps. -/
theorem perform_handleLoad (s : Session) (noFloat : Bool) (a : Address) (register : Int) :
    perform (handleLoad noFloat a register) s.workspace =
      match Instruction.ofLoad noFloat a register with
      | .ok i => (.ok (), (s.execute i).workspace)
      | .error cause => (.error cause, s.workspace) := by
  rw [handleLoad, Instruction.ofLoad, perform_require_bind]
  cases Access.ofAddress noFloat a with
  | error cause => rfl
  | ok access =>
    dsimp only
    rw [perform_require_bind]
    cases checkIndex "mems" memsCount register with
    | error cause => rfl
    | ok r =>
      show _ = (Except.ok (), (s.execute (.load access r)).workspace)
      rw [@workspace_execute (.load access r) fun _ => rfl]
      simp only [perform_alignOdd_bind, perform_emit_bind, perform_pure]
      simp [Instruction.needsOdd, Instruction.coef, Instruction.block, Program.words, Step.ofWord, Step.nop]

/-- **Every check comes before the first change.** A directive that is accepted changes the tables as its instruction
does, and one that is rejected has not changed them. -/
theorem perform_handle (s : Session) (line : Text) (d : Directive) :
    perform (handle line d) s.workspace =
      match Instruction.ofDirective line d with
      | .ok i => (.ok (), (s.execute i).workspace)
      | .error cause => (.error cause, s.workspace) := by
  -- the instructions without steps have no coefficient either
  have hnoted : s.noted ++ [] = s.noted := List.append_nil _
  cases d with
  | madrs index value =>
    show _ = (Except.ok (), workspace ⟨_, s.noted ++ []⟩)
    rw [hnoted]
    rfl
  | input bank i =>
    rw [handle, handleInput, perform_require_bind, Instruction.ofDirective]
    cases bank.input i with
    | error cause => rfl
    | ok input =>
      show _ = (Except.ok (), workspace ⟨_, s.noted ++ []⟩)
      rw [hnoted]
      rfl
  | output target =>
    rw [handle, perform_handleOutput, Instruction.ofDirective]
    cases target.check <;> rfl
  | mac x y b =>
    rw [handle, perform_handleMac, Instruction.ofDirective]
    cases Mac.ofOperands x.value y.value (b.map (·.value)) <;> rfl
  | smode m =>
    show _ = (Except.ok (), workspace ⟨_, s.noted ++ []⟩)
    rw [hnoted]
    rfl
  | store noFloat destination => rw [handle, perform_handleStore, Instruction.ofDirective]
  | load noFloat address register => rw [handle, perform_handleLoad, Instruction.ofDirective]

/-! ## Calls -/

/-- An instruction only adds steps. -/
theorem length_words_execute (s : Session) (i : Instruction) :
    s.workspace.words.length ≤ (s.execute i).workspace.words.length := by
  rw [length_words, length_words, execute, Generator.steps_execute, List.append_assoc, List.length_append]
  omega

/-- Taking a line in tables is taking it: the cut is in range, and it cuts nothing off. -/
theorem line?_workspace (s : Session) (n : Int) (text : Text) :
    s.workspace.line? n text = some (s.call (.line n text)).workspace := by
  have hcall : s.call (.line n text) = ⟨s.generator.line n text, s.noted ++ s.generator.notes text⟩ := rfl
  simp only [line?, silent?_eq, Option.bind_eq_bind, Option.bind_some]
  rw [hcall, Generator.line, Generator.lineWith, Generator.notes, Instruction.ofLine, Instruction.ofLineWith]
  split
  · rw [List.append_nil]
    rfl
  · cases hread : Directive.read? DirectiveKind.all text.trim with
    | none =>
      dsimp only
      rw [List.append_nil]
      rfl
    | some d =>
      dsimp only
      rw [perform_handle]
      cases hd : Instruction.ofDirective text.trim d with
      | error cause =>
        dsimp only
        -- a rejected directive has added nothing, so the cut is at the end
        rw [cutAt?_eq_some (Nat.le_refl _), List.take_length]
        show _ = some (workspace ⟨_, s.noted ++ []⟩)
        rw [List.append_nil]
        rfl
      | ok i =>
        dsimp only
        -- an accepted one has only added, so the cut is in range
        rw [cutAt?_eq_some (s.length_words_execute i)]
        rfl

/-- The program that a session hands out, diagnostics aside. -/
def listing (s : Session) : Listing :=
  ⟨s.generator.madrs, Table.ofProgram s.generator.finish.steps⟩

/-- The programs that a session hands out when it is called. -/
def answer (s : Session) : Call → List Listing
  | .line _ _ => []
  | .program => [s.listing]

/-- The programs that a session hands out in further calls. -/
def answers (s : Session) : List Call → List Listing
  | [] => []
  | c :: calls => s.answer c ++ (s.call c).answers calls

/-- Lines hand out nothing. -/
theorem answers_lineCalls (s : Session) (lines : List Text) : s.answers (lineCalls lines) = [] := by
  unfold lineCalls
  generalize lines.zipIdx 1 = numbered
  induction numbered generalizing s with
  | nil => rfl
  | cons first numbered ih => exact ih (s.call (.line first.2 first.1))

/-- Completing a program changes its steps only. -/
theorem workspace_program (s : Session) :
    (s.call .program).workspace = { s.workspace with words := s.generator.finish.steps.words } := by
  show workspace ⟨s.generator.finish, s.noted⟩ = _
  unfold Generator.finish
  split <;> rfl

/-- Completing the steps pads the words in the same way. -/
theorem words_finish (s : Session) :
    s.generator.finish.steps.words =
      if s.workspace.words.length % 2 == 0 then s.workspace.words else s.workspace.words ++ [0] := by
  rw [length_words, Generator.finish]
  split
  · rfl
  · exact List.map_append

/-- Handing out a program in tables is handing it out: every noted coefficient has a place. -/
theorem program?_workspace (calls : List Call) :
    (run calls).workspace.program? = some (((run calls).call .program).workspace, (run calls).listing) := by
  have hlength : (run calls).generator.finish.steps.words.length = (run calls).generator.finish.steps.length :=
    List.length_map _
  have htable : denseTable? (run calls).generator.finish.steps.length (run calls).workspace.noted =
      some (run calls).generator.finish.steps.coefs :=
    table_run calls (List.Perm.refl _)
  unfold program?
  dsimp only
  rw [← words_finish, hlength, htable, workspace_program]
  rfl

/-- No index is out of range in any calls, and the tables stay those of the session. -/
theorem run?_workspace (calls later : List Call) :
    (run calls).workspace.run? later = some ((run (calls ++ later)).workspace, (run calls).answers later) := by
  induction later generalizing calls with
  | nil =>
    rw [List.append_nil]
    rfl
  | cons c later ih =>
    have hcall : (run calls).workspace.call? c = some (((run calls).call c).workspace, (run calls).answer c) := by
      cases c with
      | line n text =>
        rw [call?, line?_workspace]
        rfl
      | program =>
        rw [call?, program?_workspace]
        rfl
    -- the remaining calls start from the session behind this one
    have hrest := ih (calls ++ [c])
    rw [run_append_singleton, List.append_assoc, List.singleton_append] at hrest
    rw [run?, hcall]
    show ((((run calls).call c).workspace).run? later).bind _ = _
    rw [hrest]
    rfl

end Session

end Microcode
