import Microcode.Proofs.Compile.Diagnostics
import Microcode.Proofs.Compile.Kept
import Microcode.Proofs.Generator.Layout

/-!
# Operands between other lines

How a line is encoded depends on the lines before it in two ways: the last `INPUT` with an index in range selects the
input, and the last `SMODE` sets the shift mode. Lines in between that are rejected, other `INPUT` lines among them,
change neither of the two (`Generator.context_taken`).

`operands_encoded_exactly` puts this together with the layout of a directive.
-/

namespace Microcode

/-! ## What a line sets -/

/-- The directive on a line, whatever its operands are. -/
def Directive.ofLine? (line : Text) : Option Directive :=
  if Instruction.isSilent line.trim then none else Directive.read? DirectiveKind.all line.trim

/-- The shift modes in the order of their codes. -/
def ShiftMode.inOrder : List ShiftMode :=
  [sat, sat2, trim2, trim]

/-- The selector that a directive sets, if it is an `INPUT` with an index in range. -/
def Directive.selector? : Directive → Option Int
  | .input bank i => if 0 ≤ i ∧ i < bank.size then some (bank.base + i) else none
  | _ => none

/-- The code of the mode that a directive sets, if it is an `SMODE`. -/
def Directive.mode? : Directive → Option Int
  | .smode m => some (ShiftMode.inOrder.idxOf m)
  | _ => none

def selectorOf? (line : Text) : Option Int :=
  (Directive.ofLine? line).bind Directive.selector?

def modeOf? (line : Text) : Option Int :=
  (Directive.ofLine? line).bind Directive.mode?

/-- What the last of the lines sets that sets anything; before that it is zero. -/
def lastSet (sets? : Text → Option Int) (lines : List Text) : Int :=
  (lines.reverse.findSome? sets?).getD 0

/-- Of all settings the last one counts. -/
theorem lastSet_append_singleton (sets? : Text → Option Int) (lines : List Text) (line : Text) :
    lastSet sets? (lines ++ [line]) = (sets? line).getD (lastSet sets? lines) := by
  unfold lastSet
  rw [List.reverse_append, List.reverse_singleton, List.singleton_append, List.findSome?_cons]
  cases sets? line <;> rfl

/-! ## The selector and the mode -/

/-- The code of a mode is its place in the order of the modes. -/
theorem ShiftMode.code_eq_idxOf (mode : ShiftMode) : mode.code = inOrder.idxOf mode := by
  cases mode <;> rfl

theorem Instruction.hasSteps_of_ofStore {noFloat : Bool} {target : Destination} {i : Instruction}
    (h : ofStore noFloat target = .ok i) : i.hasSteps = true := by
  cases target with
  | temp index =>
    rw [ofStore] at h
    split at h
    · cases h
    · obtain ⟨r, -, rfl⟩ := exists_of_map_eq_ok h
      rfl
  | memory a =>
    obtain ⟨access, -, rfl⟩ := exists_of_map_eq_ok h
    rfl

theorem Instruction.hasSteps_of_ofLoad {noFloat : Bool} {a : Address} {register : Int} {i : Instruction}
    (h : ofLoad noFloat a register = .ok i) : i.hasSteps = true := by
  obtain ⟨access, -, h⟩ := exists_of_bind_eq_ok h
  obtain ⟨r, -, h⟩ := exists_of_bind_eq_ok h
  cases h
  rfl

namespace Generator

/-- Executing an instruction with steps is emitting them. -/
theorem execute_eq_emit {i : Instruction} (hi : i.hasSteps = true) (g : Generator) : g.execute i = g.emit i := by
  cases i with
  | madrs line => exact Bool.noConfusion hi
  | select input => exact Bool.noConfusion hi
  | mode m => exact Bool.noConfusion hi
  | _ => rfl

/-- The instruction of a directive sets what the directive sets, and keeps the rest. -/
theorem context_execute {line : Text} {d : Directive} {i : Instruction}
    (h : Instruction.ofDirective line d = .ok i) (g : Generator) :
    (((g.execute i).input : Nat) : Int) = d.selector?.getD (g.input : Nat) ∧
      ((g.execute i).mode.code : Int) = d.mode?.getD g.mode.code := by
  have hemit : ∀ {j : Instruction}, j.hasSteps = true →
      (g.execute j).input = g.input ∧ (g.execute j).mode = g.mode := by
    intro j hj
    rw [execute_eq_emit hj]
    exact ⟨rfl, rfl⟩
  -- only the two directives without steps change the context
  cases d with
  | madrs index value =>
    cases h
    exact ⟨rfl, rfl⟩
  | input bank index =>
    obtain ⟨selected, hselected, rfl⟩ := exists_of_map_eq_ok h
    rcases bank.input_cases index with ⟨s, hs, hrange, hval⟩ | ⟨⟨cause, hc⟩, -⟩
    · rw [hselected] at hs
      cases hs
      rw [Directive.selector?, if_pos hrange]
      exact ⟨hval, rfl⟩
    · rw [hselected] at hc
      cases hc
  | smode m =>
    cases h
    exact ⟨rfl, congrArg Int.ofNat m.code_eq_idxOf⟩
  | output target =>
    obtain ⟨checked, -, rfl⟩ := exists_of_map_eq_ok h
    exact ⟨rfl, rfl⟩
  | mac x y b =>
    obtain ⟨m, -, rfl⟩ := exists_of_map_eq_ok h
    exact ⟨rfl, rfl⟩
  | store noFloat target =>
    obtain ⟨hinput, hmode⟩ := hemit (Instruction.hasSteps_of_ofStore h)
    rw [hinput, hmode]
    exact ⟨rfl, rfl⟩
  | load noFloat source register =>
    obtain ⟨hinput, hmode⟩ := hemit (Instruction.hasSteps_of_ofLoad h)
    rw [hinput, hmode]
    exact ⟨rfl, rfl⟩

/-- A directive that is rejected sets nothing. -/
theorem sets_nothing_of_rejected {line : Text} {d : Directive} {cause : Rejection}
    (h : Instruction.ofDirective line d = .error cause) : d.selector? = none ∧ d.mode? = none := by
  cases d with
  | input bank index =>
    rcases bank.input_cases index with ⟨s, hs, -⟩ | ⟨-, hrange⟩
    · rw [Instruction.ofDirective, hs] at h
      cases h
    · exact ⟨if_neg hrange, rfl⟩
  | smode m => cases h
  | _ => exact ⟨rfl, rfl⟩

/-- A line sets the selector or the mode, or it keeps them. -/
theorem context_line (g : Generator) (n : Int) (line : Text) :
    (((g.line n line).input : Nat) : Int) = (selectorOf? line).getD (g.input : Nat) ∧
      ((g.line n line).mode.code : Int) = (modeOf? line).getD g.mode.code := by
  unfold Generator.line lineWith Instruction.ofLineWith selectorOf? modeOf? Directive.ofLine?
  dsimp only
  cases Instruction.isSilent line.trim with
  | true => exact ⟨rfl, rfl⟩
  | false =>
    simp only [Bool.false_eq_true, if_false]
    cases Directive.read? DirectiveKind.all line.trim with
    | none => exact ⟨rfl, rfl⟩
    | some d =>
      rw [Option.bind_some, Option.bind_some]
      dsimp only
      cases hd : Instruction.ofDirective line.trim d with
      | error cause =>
        -- a directive that is rejected sets nothing, although it was read
        obtain ⟨hselector, hmode⟩ := sets_nothing_of_rejected hd
        rw [hselector, hmode]
        exact ⟨rfl, rfl⟩
      | ok i => exact context_execute hd g

/-- The last line is taken under its number. -/
theorem taken_append_singleton (lines : List Text) (line : Text) :
    taken (lines ++ [line]) = (taken lines).line (1 + lines.length : Nat) line :=
  takeLines_append initial 1 lines [line]

/-- The selector and the mode are what the last lines that set them say. -/
theorem context_taken (lines : List Text) :
    (((taken lines).input : Nat) : Int) = lastSet selectorOf? lines ∧
      ((taken lines).mode.code : Int) = lastSet modeOf? lines := by
  induction lines using List.reverseRecOn with
  | nil => exact ⟨rfl, rfl⟩
  | append_singleton lines line ih =>
    obtain ⟨hinput, hmode⟩ := (taken lines).context_line (1 + lines.length : Nat) line
    rw [taken_append_singleton, lastSet_append_singleton, lastSet_append_singleton, ← ih.1, ← ih.2]
    exact ⟨hinput, hmode⟩

end Generator

/-! ## Accepted lines -/

/-- A directive on a line without a problem is an instruction. -/
theorem Instruction.ofLine_of_directive {line : Text} {d : Directive} (hread : Directive.ofLine? line = some d)
    (haccepted : problem? line = none) :
    ∃ i, ofLine line = .ok (some i) ∧ ofDirective line.trim d = .ok i := by
  unfold Directive.ofLine? at hread
  split at hread
  · cases hread
  · next hsilent =>
    have hline : ofLine line = (some <$> ofDirective line.trim d).mapError (.invalid line.trim) := by
      unfold ofLine ofLineWith
      dsimp only
      rw [if_neg hsilent, hread]
    cases hd : ofDirective line.trim d with
    | error cause =>
      rw [problem?, hline, hd] at haccepted
      cases haccepted
    | ok i =>
      refine ⟨i, ?_, rfl⟩
      rw [hline, hd]
      rfl

/-- An instruction that needs a filler has no coefficient, as the filler has none. -/
theorem Generator.coef_of_mem_filler {g : Generator} {i : Instruction} {s : Step} (hs : s ∈ g.filler i) :
    s.coef = i.coef := by
  have hi : i.coef = 0 := by
    by_contra hi
    obtain ⟨m, rfl, -⟩ := Instruction.eq_mac_of_coef_ne_zero hi
    exact List.not_mem_nil hs
  rw [eq_nop_of_mem_filler hs, hi]
  rfl

/-- An index in the second of two lists, in any list that starts with them. -/
theorem exists_mem_of_prefix {α : Type} {a b p : List α} {k : Nat} (h : a ++ b <+: p) (hlow : a.length ≤ k)
    (hhigh : k < (a ++ b).length) : ∃ x ∈ b, p[k]? = some x := by
  have hk : k - a.length < b.length := by
    rw [List.length_append] at hhigh
    omega
  obtain ⟨rest, rfl⟩ := h
  refine ⟨b[k - a.length], List.getElem_mem hk, ?_⟩
  rw [List.getElem?_append_left hhigh, List.getElem?_append_right hlow, List.getElem?_eq_getElem hk]

/-- How a directive is encoded on a line between others: by the steps `emitted`, after a filler if there is one. -/
structure Directive.EncodedBy (d : Directive) (before : List Text) (text : Text) (after : List Text)
    (fillers emitted : Program) : Prop where
  /-- These are the steps that the line adds. -/
  added : (Generator.taken (before ++ [text])).steps = (Generator.taken before).steps ++ fillers ++ emitted
  /-- They stay where they are when the other lines are taken and the program is completed. -/
  kept : (Generator.taken (before ++ [text])).steps <+: (Generator.ofLines (before ++ text :: after)).steps
  fillers : fillers = [] ∨ fillers = [.nop]
  /-- Each step has the fields that the directive asks for, and all other fields are zero. -/
  fields : List.Forall₂ (fun s values => s.word.Reads values) emitted
    (d.layout (lastSet selectorOf? before) (lastSet modeOf? before))
  /-- A coefficient is noted for a step of the line iff it is the integer factor and not zero. -/
  noted : ∀ k c, (Generator.taken before).steps.length ≤ k →
    k < (Generator.taken (before ++ [text])).steps.length →
    ((k, c) ∈ (Session.run (Session.lineCalls (before ++ text :: after))).noted ↔ c = d.weight ∧ c ≠ 0)

/-- **Operands are encoded as they are.** A line with a directive that is accepted adds steps whose fields have the
operands of the directive as they were read, and the selector and the mode that the last lines before it have set. -/
theorem operands_encoded_exactly {text : Text} {d : Directive} (hread : Directive.ofLine? text = some d)
    (haccepted : Instruction.problem? text = none) (before after : List Text) :
    ∃ fillers emitted, d.EncodedBy before text after fillers emitted := by
  obtain ⟨i, hline, hd⟩ := Instruction.ofLine_of_directive hread haccepted
  obtain ⟨hinput, hmode⟩ := Generator.context_taken before
  obtain ⟨hfields, hcoef⟩ :=
    Instruction.reads_block hd (Generator.taken before).input (Generator.taken before).mode
  rw [hinput, hmode] at hfields
  have hadded : (Generator.taken (before ++ [text])).steps =
      (Generator.taken before).steps ++ (Generator.taken before).filler i ++
        i.block (Generator.taken before).input (Generator.taken before).mode := by
    rw [Generator.taken_append_singleton, Generator.line_eq_execute hline, Generator.steps_execute]
  have hkept : (Generator.taken (before ++ [text])).steps <+:
      (Generator.ofLines (before ++ text :: after)).steps := by
    rw [Generator.taken_append_singleton]
    exact Generator.steps_line_isPrefix_ofLines before text after
  refine ⟨_, _, hadded, hkept, Generator.filler_cases _ _, hfields, ?_⟩
  intro k c hlow hhigh
  -- the notes are the coefficients of the completed program, and the step is one of those that the line adds
  rw [Session.noted_run, Session.generator_run_lineCalls, ← Session.weights_finish,
    ← Generator.ofLines_eq_finish, Program.mem_weights_iff]
  rw [hadded, List.append_assoc] at hkept hhigh
  obtain ⟨s, hmem, hs⟩ := exists_mem_of_prefix hkept hlow hhigh
  have hscoef : s.coef = d.weight := by
    rw [← hcoef]
    exact (List.mem_append.1 hmem).elim Generator.coef_of_mem_filler Instruction.coef_of_mem_block
  refine and_congr_left fun _ => ?_
  constructor
  · rintro ⟨t, ht, rfl⟩
    rw [hs] at ht
    cases ht
    exact hscoef
  · rintro rfl
    exact ⟨s, hs, hscoef⟩

/-- Lines of which the last one that could select an input does not. -/
def negatedSource : List Text :=
  [ascii "INPUT mixer:15", ascii "SMODE trim", ascii "INPUT mems:32"]

/-- A multiplication by the lowest coefficient, with the selector of the last line that is accepted. -/
theorem operands_encoded_exactly_negated :
    ∃ d fillers emitted, Directive.ofLine? (ascii "MAC input, -4096, -[temp:127]") = some d ∧
      Instruction.problem? (ascii "MAC input, -4096, -[temp:127]") = none ∧
      d.layout (lastSet selectorOf? negatedSource) (lastSet modeOf? negatedSource) =
        [[(.xsel, 1), (.ira, 47), (.ysel, 1), (.tra, 127), (.negb, 1)]] ∧
      d.EncodedBy negatedSource (ascii "MAC input, -4096, -[temp:127]") [ascii "OUTPUT yreg"] fillers emitted := by
  have hread : Directive.ofLine? (ascii "MAC input, -4096, -[temp:127]") =
      some (.mac ⟨⟨4, 9⟩, .input⟩ ⟨⟨11, 16⟩, .coefficient (-4096)⟩
        (some ⟨⟨18, 29⟩, true, some ⟨⟨19, 29⟩, 127⟩⟩)) := by
    decide +kernel
  have haccepted : Instruction.problem? (ascii "MAC input, -4096, -[temp:127]") = none := by
    decide +kernel
  obtain ⟨fillers, emitted, h⟩ :=
    operands_encoded_exactly hread haccepted negatedSource [ascii "OUTPUT yreg"]
  exact ⟨_, fillers, emitted, hread, haccepted, by decide +kernel, h⟩

end Microcode
