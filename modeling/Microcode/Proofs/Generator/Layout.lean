import Microcode.Proofs.Generator.Session
import Microcode.Proofs.Instruction.Checks

/-!
# Operands in the fields

Writing a field keeps the low bits of a number and drops the others. Here it is shown that nothing is ever dropped:
the fields of an instruction have the integers that were read. What the fields are to be is said by
`Directive.layout`, which goes by the directive as it was read, without any check of its operands.

* `Word.Reads` says which fields a word has, and with which values;
* `Instruction.reads_block` compares the steps of an instruction to the layout of its directive.
-/

namespace Microcode

open Word

/-! ## What a line asks for -/

/-- Fields with their values. -/
abbrev FieldValues := List (Field × Int)

/-- A field that is set to one if a condition holds. -/
def mark (f : Field) (on : Bool) : FieldValues :=
  if on then [(f, 1)] else []

/-- The fields that keep the accumulator as it is: it is the second summand, and the product is zero. -/
def keepValues : FieldValues :=
  [(.ysel, 1), (.bsel, 1)]

@[simp] theorem mem_map_fst_mark {f g : Field} {on : Bool} :
    g ∈ (mark f on).map Prod.fst ↔ on = true ∧ g = f := by
  cases on <;> simp [mark]

/-- What an output asks for. The step is followed by an empty one if the address comes from the accumulator. -/
def Output.layout (selector mode : Int) : Output Int → List FieldValues
  | .yreg => [keepValues ++ [(.yrl, 1), (.ira, selector)]]
  | .adrs =>
    (keepValues ++ [(.adrl, 1), (.ira, selector), (.shift, mode)]) :: if mode = 3 then [[]] else []
  | .adrsShifted => [keepValues ++ [(.adrl, 1), (.shift, 3)], []]
  | .mixer i => [keepValues ++ [(.ewt, 1), (.ewa, i), (.shift, mode)]]

def Multiplicand.layout (selector : Int) : Multiplicand Int → FieldValues
  | .input => [(.xsel, 1), (.ira, selector)]
  | .temp i => [(.tra, i)]

/-- The code of a factor as it was read. -/
def Factor.kind : Factor Int → Int
  | .shifted => 0
  | .coefficient _ => 1
  | .yreg => 2
  | .yregLow => 3

def summandLayout : Option Summand → FieldValues
  | none => [(.zero, 1)]
  | some ⟨negated, none⟩ => (.bsel, 1) :: mark .negb negated
  | some ⟨negated, some i⟩ => (.tra, i.value) :: mark .negb negated

def Address.layout (noFloat : Bool) (a : Address) : FieldValues :=
  [(.masa, a.index)] ++ mark .table a.opened ++ mark .nxadr a.next ++ mark .adreb a.adrs ++ mark .nofl noFloat

def Destination.layout (mode : Int) (noFloat : Bool) : Destination → FieldValues
  | .temp i => keepValues ++ [(.twt, 1), (.twa, i), (.shift, mode)]
  | .memory a => a.layout noFloat ++ [(.mwt, 1)] ++ [(.shift, mode)]

/-- The steps that a directive asks for under a selector and a mode, fillers aside. -/
def Directive.layout (selector mode : Int) : Directive → List FieldValues
  | .output target => target.layout selector mode
  | .mac x y b => [x.value.layout selector ++ [(.ysel, y.value.kind)] ++ summandLayout (b.map (·.value))]
  | .store noFloat target => [target.value.layout mode noFloat]
  | .load noFloat source register => [source.value.layout noFloat ++ [(.mrd, 1)], [], [(.iwt, 1), (.iwa, register)]]
  | .madrs _ _ | .input _ _ | .smode _ => []

def Factor.weight : Factor Int → Int
  | .coefficient c => c
  | _ => 0

/-- The integer factor of a directive, or zero if it has none. -/
def Directive.weight : Directive → Int
  | .mac _ y _ => y.value.weight
  | _ => 0

/-! ## Fields of a word -/

/-- The fields of a word: it has the given ones with their values, and all others are zero. -/
structure Word.Reads (w : Word) (values : FieldValues) : Prop where
  get : ∀ e ∈ values, (w.get e.1 : Int) = e.2
  zero : ∀ f, f ∉ values.map Prod.fst → w.get f = 0

namespace Word.Reads

variable {w : Word} {values : FieldValues}

theorem nil : (0 : Word).Reads [] where
  get _ he := absurd he List.not_mem_nil
  zero f _ := get_zero f

/-- A field that is written with a number that it can hold has that number. -/
theorem set (h : w.Reads values) {f : Field} (hf : f ∉ values.map Prod.fst) {v : Nat} (hv : v < 2 ^ f.width) :
    (w.set f v).Reads (values ++ [(f, (v : Int))]) where
  get e he := by
    rcases List.mem_append.1 he with he | he
    · have hne : e.1 ≠ f := fun hc => hf (hc ▸ List.mem_map_of_mem he)
      rw [get_set_of_ne w hne, h.get e he]
    · rw [List.mem_singleton.1 he, get_set_self, Nat.mod_eq_of_lt hv]
  zero g hg := by
    rw [List.map_append, List.mem_append, not_or] at hg
    have hne : g ≠ f := fun hc => hg.2 (List.mem_singleton.2 hc)
    rw [get_set_of_ne w hne, h.zero g hg.1]

/-- A flag adds its field to the values of a word, or nothing. -/
theorem flag (h : w.Reads values) {f : Field} (hf : f ∉ values.map Prod.fst) (on : Bool) :
    (w.flag f on).Reads (values ++ mark f on) := by
  cases on with
  | false =>
    rw [show mark f false = [] from rfl, List.append_nil]
    exact h
  | true => exact h.set hf (Nat.one_lt_two_pow (Nat.pos_iff_ne_zero.1 f.width_pos))

/-- Values can be left out if they are zero, and repeated. -/
theorem congr (h : w.Reads values) {others : FieldValues} (hmem : ∀ e ∈ others, e ∈ values)
    (hzero : ∀ e ∈ values, e.1 ∈ others.map Prod.fst ∨ e.2 = 0) : w.Reads others where
  get e he := h.get e (hmem e he)
  zero f hf := by
    by_cases hmem : f ∈ values.map Prod.fst
    · obtain ⟨e, he, rfl⟩ := List.mem_map.1 hmem
      have hvalue : e.2 = 0 := (hzero e he).resolve_left hf
      have hget := h.get e he
      omega
    · exact h.zero f hmem

end Word.Reads

/-! ## Encoded operands -/

theorem reads_keepAccumulator : keepAccumulator.Reads keepValues :=
  (Reads.nil.set (by simp) (by decide)).set (by simp) (by decide)

theorem ShiftMode.code_lt (mode : ShiftMode) : mode.code < 2 ^ Field.shift.width :=
  Nat.lt_succ_of_le mode.code_le

theorem lt_of_input (input : Input) : (input : Nat) < 2 ^ Field.ira.width :=
  Nat.lt_of_lt_of_le input.isLt (by decide)

/-- The address register is loaded late if it is loaded with shift three. -/
theorem loadsAddressLate_iff {w : Word} : w.loadsAddressLate = true ↔ w.get .adrl ≠ 0 ∧ w.get .shift = 3 := by
  rw [loadsAddressLate, Bool.and_eq_true, has_iff, beq_iff_eq]
  rfl

namespace Access

/-- An access has the fields of its address and no others. -/
theorem reads_word (a : Access) :
    a.word.Reads ([(.masa, (a.entry : Int))] ++ mark .table a.table ++ mark .nxadr a.next ++ mark .adreb a.adrs ++
      mark .nofl a.noFloat) := by
  have hentry : ((0 : Word).set .masa a.entry).Reads [(.masa, (a.entry : Int))] :=
    Reads.nil.set (by simp) a.entry.isLt
  exact (((hentry.flag (by simp) _).flag (by simp) _).flag (by simp) _).flag (by simp) _

/-- What an address is checked to has the layout of the address. -/
theorem reads_layout {noFloat : Bool} {a : Address} {access : Access} (h : ofAddress noFloat a = .ok access) :
    access.word.Reads (a.layout noFloat) := by
  obtain ⟨entry, hentry, rfl⟩ := exists_of_ofAddress h
  rw [Address.layout, ← hentry]
  exact reads_word _

end Access

namespace Mac

/-- The fields of a multiplication that takes the input. -/
def inputValues (selector : Int) (fromInput : Bool) : FieldValues :=
  if fromInput then [(.xsel, 1), (.ira, selector)] else []

/-- The fields of the input are there if the input is selected. -/
theorem mem_map_fst_inputValues {selector : Int} {fromInput : Bool} {f : Field} :
    f ∈ (inputValues selector fromInput).map Prod.fst ↔ fromInput = true ∧ (f = .xsel ∨ f = .ira) := by
  cases fromInput <;> simp [inputValues]

/-- The fields of a multiplication, with a temporary register even if none is read. -/
theorem reads_step (m : Mac) (input : Input) :
    (m.step input).word.Reads (inputValues input m.fromInput ++ [(.tra, (m.register : Int))] ++
      [(.ysel, (m.factor.code : Int))] ++ mark .zero (m.addend == .zero) ++
      mark .bsel (m.addend == .accumulator) ++ mark .negb m.negated) := by
  have hcode : m.factor.code < 2 ^ Field.ysel.width := by
    cases m.factor <;> simp [Factor.code, Field.width]
  have hx : (if m.fromInput then ((0 : Word).set .xsel 1).set .ira input else 0).Reads
      (inputValues input m.fromInput) := by
    unfold inputValues
    split
    · exact (Reads.nil.set (by simp) (by decide)).set (by simp) (lt_of_input input)
    · exact Reads.nil
  have hregister : (m.register : Nat) < 2 ^ Field.tra.width := m.register.isLt
  have hy := (hx.set (by simp [mem_map_fst_inputValues]) hregister).set (by simp [mem_map_fst_inputValues]) hcode
  exact ((hy.flag (by simp [mem_map_fst_inputValues]) _).flag (by simp [mem_map_fst_inputValues]) _).flag
    (by simp [mem_map_fst_inputValues]) _

/-- A factor that passes its check keeps its kind and its weight. -/
theorem check_eq_ok {y : Factor Int} {factor : Factor Coefficient} (h : y.check = .ok factor) :
    (factor.code : Int) = y.kind ∧ factor.coef = y.weight := by
  cases y with
  | coefficient c =>
    rw [Factor.check] at h
    split at h
    · cases h
      exact ⟨rfl, rfl⟩
    · cases h
  | _ =>
    cases h
    exact ⟨rfl, rfl⟩

/-- The one temporary register of a multiplication is each one that was read. -/
theorem reads_layout {x : Multiplicand Int} {y : Factor Int} {b : Option Summand} {m : Mac}
    (h : ofOperands x y b = .ok m) (input : Input) :
    (m.step input).word.Reads (x.layout input ++ [(.ysel, y.kind)] ++ summandLayout b) ∧
      m.factor.coef = y.weight := by
  obtain ⟨source, hx, h⟩ := exists_of_bind_eq_ok h
  obtain ⟨factor, hy, h⟩ := exists_of_bind_eq_ok h
  obtain ⟨hcode, hcoef⟩ := check_eq_ok hy
  rw [← hcode]
  -- with the operands at hand, the two lists differ by a register that is zero or stands twice
  rcases b with _ | ⟨negated, _ | t⟩
  · cases h
    rcases Multiplicand.register_eq_ok hx with ⟨rfl, rfl⟩ | ⟨s, rfl, rfl⟩ <;>
      refine ⟨(reads_step _ input).congr ?_ ?_, hcoef⟩ <;>
      simp [inputValues, mark, Multiplicand.layout, summandLayout]
  · cases h
    rcases Multiplicand.register_eq_ok hx with ⟨rfl, rfl⟩ | ⟨s, rfl, rfl⟩ <;> cases negated <;>
      refine ⟨(reads_step _ input).congr ?_ ?_, hcoef⟩ <;>
      simp [inputValues, mark, Multiplicand.layout, summandLayout]
  · obtain ⟨r, hr, hrest⟩ := exists_of_bind_eq_ok h
    obtain ⟨register, hshared, hm⟩ := exists_of_bind_eq_ok hrest
    obtain ⟨rfl, hsource⟩ := eq_of_sharedRegister hshared
    have ht : t.value = register := (val_of_checkIndex (ok_of_mapError_eq_ok hr)).symm
    cases hm
    rcases Multiplicand.register_eq_ok hx with ⟨rfl, rfl⟩ | ⟨s, rfl, rfl⟩ <;> cases negated <;>
      refine ⟨(reads_step _ input).congr ?_ ?_, hcoef⟩ <;>
      simp_all [inputValues, mark, Multiplicand.layout, summandLayout]

end Mac

namespace Output

variable {input : Input} {mode : ShiftMode}

/-- The steps of an output: its word, and an empty one if the word has the address late. -/
theorem reads_block {o : Output (Fin mixerCount)} {values : FieldValues} (h : (o.word input mode).Reads values)
    {late : Prop} [Decidable late]
    (hlate : (o.word input mode).get .adrl ≠ 0 ∧ (o.word input mode).get .shift = 3 ↔ late) :
    List.Forall₂ (fun s values => s.word.Reads values) ((Instruction.output o).block input mode)
      (values :: if late then [[]] else []) := by
  rw [← loadsAddressLate_iff] at hlate
  simp only [Instruction.block, hlate]
  split
  · exact .cons h (.cons Reads.nil .nil)
  · exact .cons h .nil

/-- The steps of an output are those that it asks for. -/
theorem reads_layout {o : Output Int} {checked : Output (Fin mixerCount)} (h : o.check = .ok checked) :
    List.Forall₂ (fun s values => s.word.Reads values) ((Instruction.output checked).block input mode)
      (o.layout input mode.code) := by
  have hkeep := reads_keepAccumulator
  cases o with
  | yreg =>
    cases h
    have hword : (yreg.word input mode).Reads (keepValues ++ [(.yrl, 1), (.ira, (input : Int))]) :=
      (hkeep.set (by simp [keepValues]) (by decide)).set (by simp [keepValues]) (lt_of_input input)
    have hadrl : (yreg.word input mode).get .adrl = 0 := hword.zero .adrl (by simp [keepValues])
    exact @reads_block _ _ _ _ hword False _ (by simp [hadrl])
  | adrs =>
    cases h
    have hword : (adrs.word input mode).Reads
        (keepValues ++ [(.adrl, 1), (.ira, (input : Int)), (.shift, (mode.code : Int))]) :=
      ((hkeep.set (by simp [keepValues]) (by decide)).set (by simp [keepValues]) (lt_of_input input)).set
        (by simp [keepValues]) mode.code_lt
    have hadrl := hword.get (.adrl, 1) (by simp)
    have hshift := hword.get (.shift, (mode.code : Int)) (by simp)
    dsimp only at hadrl hshift
    exact reads_block hword (by omega)
  | adrsShifted =>
    cases h
    have hword : (adrsShifted.word input mode).Reads (keepValues ++ [(.adrl, 1), (.shift, 3)]) :=
      (hkeep.set (by simp [keepValues]) (by decide)).set (by simp [keepValues]) (by decide)
    have hadrl := hword.get (.adrl, 1) (by simp)
    have hshift := hword.get (.shift, 3) (by simp)
    dsimp only at hadrl hshift
    exact @reads_block _ _ _ _ hword True _ (iff_true_intro ⟨by omega, by omega⟩)
  | mixer i =>
    obtain ⟨channel, hchannel, rfl⟩ := exists_of_map_eq_ok h
    have hword : ((mixer channel).word input mode).Reads
        (keepValues ++ [(.ewt, 1), (.ewa, (channel : Int)), (.shift, (mode.code : Int))]) :=
      ((hkeep.set (by simp [keepValues]) (by decide)).set (by simp [keepValues]) channel.isLt).set
        (by simp [keepValues]) mode.code_lt
    have hadrl : ((mixer channel).word input mode).get .adrl = 0 := hword.zero .adrl (by simp [keepValues])
    rw [layout, ← val_of_checkIndex hchannel]
    exact @reads_block _ _ _ _ hword False _ (by simp [hadrl])

end Output

namespace Instruction

/-- The steps of an instruction have the fields that its directive asks for, and its coefficient. -/
theorem reads_block {line : Text} {d : Directive} {i : Instruction} (h : ofDirective line d = .ok i)
    (input : Input) (mode : ShiftMode) :
    List.Forall₂ (fun s values => s.word.Reads values) (i.block input mode) (d.layout input mode.code) ∧
      i.coef = d.weight := by
  cases d with
  | madrs index value =>
    cases h
    exact ⟨.nil, rfl⟩
  | input bank index =>
    obtain ⟨selected, -, rfl⟩ := exists_of_map_eq_ok h
    exact ⟨.nil, rfl⟩
  | smode m =>
    cases h
    exact ⟨.nil, rfl⟩
  | output target =>
    obtain ⟨checked, hchecked, rfl⟩ := exists_of_map_eq_ok h
    exact ⟨Output.reads_layout hchecked, rfl⟩
  | mac x y b =>
    obtain ⟨m, hm, rfl⟩ := exists_of_map_eq_ok h
    obtain ⟨hreads, hcoef⟩ := Mac.reads_layout hm input
    exact ⟨.cons hreads .nil, hcoef⟩
  | store noFloat target =>
    obtain ⟨span, target⟩ := target
    cases target with
    | temp index =>
      rw [ofDirective, ofStore] at h
      split at h
      · cases h
      · obtain ⟨r, hr, rfl⟩ := exists_of_map_eq_ok h
        have hword : (((keepAccumulator.set .twt 1).set .twa r).set .shift mode.code).Reads
            (keepValues ++ [(.twt, 1), (.twa, (r : Int)), (.shift, (mode.code : Int))]) :=
          ((reads_keepAccumulator.set (by simp [keepValues]) (by decide)).set (by simp [keepValues]) r.isLt).set
            (by simp [keepValues]) mode.code_lt
        rw [val_of_checkIndex hr] at hword
        exact ⟨.cons hword .nil, rfl⟩
    | memory a =>
      obtain ⟨access, haccess, rfl⟩ := exists_of_map_eq_ok h
      have hword : ((access.word.set .mwt 1).set .shift mode.code).Reads
          (a.layout noFloat ++ [(.mwt, 1)] ++ [(.shift, (mode.code : Int))]) :=
        ((Access.reads_layout haccess).set (by simp [Address.layout]) (by decide)).set (by simp [Address.layout])
          mode.code_lt
      exact ⟨.cons hword .nil, rfl⟩
  | load noFloat source register =>
    obtain ⟨access, haccess, h⟩ := exists_of_bind_eq_ok h
    obtain ⟨r, hr, h⟩ := exists_of_bind_eq_ok h
    cases h
    have hread : (access.word.set .mrd 1).Reads (source.value.layout noFloat ++ [(.mrd, 1)]) :=
      (Access.reads_layout haccess).set (by simp [Address.layout]) (by decide)
    have hcommit : (((0 : Word).set .iwt 1).set .iwa r).Reads [(.iwt, 1), (.iwa, (r : Int))] :=
      (Reads.nil.set (by simp) (by decide)).set (by simp) r.isLt
    rw [val_of_checkIndex hr] at hcommit
    exact ⟨.cons hread (.cons Reads.nil (.cons hcommit .nil)), rfl⟩

end Instruction

end Microcode
