import Microcode.Directive.Grammar
import Microcode.Proofs.Parser.Tokens

/-!
# What the directive parsers recognise

The relation of every operand and of every kind of directive, put together as its parser is. Directives are
seen as phrases, that is, without the places of their operands (`Directive.phrase`).
-/

namespace Microcode

/-- A directive without the places of its operands. A summand is its sign (`true` for minus) and the
temporary register that it reads, if it is not the accumulator. -/
inductive Phrase where
  | madrs (index : Int) (value : Text)
  | input (bank : Bank) (index : Int)
  | output (target : Output Int)
  | mac (multiplicand : Multiplicand Int) (factor : Factor Int) (summand : Option (Bool × Option Int))
  | smode (mode : ShiftMode)
  | store (noFloat : Bool) (destination : Destination)
  | load (noFloat : Bool) (address : Address) (register : Int)
deriving DecidableEq, Repr

/-- A summand without places. -/
def Summand.phrase (b : Summand) : Bool × Option Int :=
  (b.negated, b.temp.map (·.value))

/-- Leaves out the places of the operands. -/
def Directive.phrase : Directive → Phrase
  | .madrs index value => .madrs index value
  | .input bank index => .input bank index
  | .output target => .output target
  | .mac x y b => .mac x.value y.value (b.map (·.value.phrase))
  | .smode mode => .smode mode
  | .store noFloat destination => .store noFloat destination.value
  | .load noFloat address register => .load noFloat address.value register

/-- The kind of the directive that a phrase is of. -/
def Phrase.kind : Phrase → DirectiveKind
  | .madrs .. => .madrs
  | .input .. => .input
  | .output .. => .output
  | .mac .. => .mac
  | .smode .. => .smode
  | .store .. => .store
  | .load .. => .load

namespace Parser

/-! ## Operands -/

/-- An operand `kind : integer`. -/
def IndexedText (kind : Text) (i : Int) (s r : Text) : Prop :=
  ∃ m, Keyword kind s m ∧ ∃ m', Mark (ascii ":") (skipGaps m) m' ∧ Number i (skipGaps m') r

/-- An indexed operand is read exactly as its grammar says. -/
theorem recognises_indexed (kind : Text) :
    Recognises (indexed kind).scan (fun l => l.value.index) (IndexedText kind) := by
  refine Recognises.located (v := fun i : Indexed => i.index) ?_
  refine (recognises_keyword kind).seq ?_
  refine (recognises_const _).token.seq ?_
  exact recognises_int.token.bind_pure fun _ => rfl

/-- A temporary register. -/
def TempText (i : Int) (s r : Text) : Prop :=
  ∃ m, Mark (ascii "[") s m ∧ ∃ m', IndexedText (ascii "temp") i (skipGaps m) m' ∧
    Mark (ascii "]") (skipGaps m') r

theorem recognises_temp : Recognises temp.scan (·.value) TempText := by
  refine Recognises.located (v := id) ?_
  refine Recognises.bind_pure (v := fun l : Located Indexed => l.value.index) ?_ fun _ => rfl
  exact (recognises_const _).wrapped (recognises_indexed _).spaced (recognises_const _).spaced

/-- An address with its marks. -/
def AddressText (a : Address) (s r : Text) : Prop :=
  ∃ m₁, Flag (Mark (ascii "[")) a.opened s m₁ ∧
    ∃ m₂, IndexedText (ascii "madrs") a.index (skipGaps m₁) m₂ ∧
    ∃ m₃, Flag (Mark (ascii "+")) a.next (skipGaps m₂) m₃ ∧
    ∃ m₄, Flag (Mark (ascii "]")) a.closed (skipGaps m₃) m₄ ∧
    Flag (Keyword (ascii "/s")) a.adrs (skipGaps m₄) r

/-- An optional mark is a flag that says whether the mark is there. -/
theorem recognises_flag_mark {t : String} (ht : ascii t ≠ []) :
    Recognises (optional (mark t)).scan Option.isSome (Flag (Mark (ascii t))) :=
  (recognises_const _).flag (atomic_const ht)

/-- An address is read exactly as its grammar says, with its brackets as they stand. -/
theorem recognises_address : Recognises address.scan (·.value) AddressText := by
  refine Recognises.located (v := id) ?_
  refine (Recognises.bind (recognises_flag_mark (by decide)) fun _ opened ho =>
    Recognises.bind (recognises_indexed _).token fun _ index hi =>
    Recognises.bind (recognises_flag_mark (by decide)).token fun _ next hn =>
    Recognises.bind (recognises_flag_mark (by decide)).token fun _ closed hc =>
    Recognises.bind ((recognises_keyword _).flag (atomic_keyword (by decide))).token fun _ adrs ha =>
    Recognises.pure (Address.mk index opened next closed adrs) ?_).congr fun a s r => ?_
  · subst_vars
    rfl
  · constructor
    · rintro ⟨opened, m₁, h₁, index, m₂, h₂, next, m₃, h₃, closed, m₄, h₄, adrs, m₅, h₅, rfl, rfl⟩
      exact ⟨m₁, h₁, m₂, h₂, m₃, h₃, m₄, h₄, h₅⟩
    · rintro ⟨m₁, h₁, m₂, h₂, m₃, h₃, m₄, h₄, h₅⟩
      exact ⟨_, m₁, h₁, _, m₂, h₂, _, m₃, h₃, _, m₄, h₄, _, r, h₅, rfl, rfl⟩

/-- The accumulator or a temporary register. -/
def RegisterText : Option Int → Text → Text → Prop
  | none => Keyword (ascii "acc")
  | some i => TempText i

/-- A temporary register starts with its bracket. -/
theorem TempText.head?_eq {i : Int} {s r : Text} (h : TempText i s r) :
    s.head? = some '['.toUInt8 := by
  obtain ⟨m, hm, -⟩ := h
  exact Mark.head?_eq hm

/-- A text that starts with another byte does not start with the keyword. -/
theorem not_keyword_of_head? {b b' : UInt8} {t s m : Text} (hs : s.head? = some b') (hb : b' ≠ b) :
    ¬ Keyword (b :: t) s m := by
  intro h
  exact hb (Option.some.inj (hs.symm.trans h.head?_eq))

/-- A number is not taken for a keyword that starts with a letter. -/
theorem Number.not_keyword {b : UInt8} {t s r m : Text} {v : Int} (h : Number v s r)
    (hb : Text.isDigit b = false ∧ b ≠ '+'.toUInt8 ∧ b ≠ '-'.toUInt8) : ¬ Keyword (b :: t) s m := by
  obtain ⟨b', hs, hb'⟩ := h.head?_eq
  refine not_keyword_of_head? hs ?_
  rintro rfl
  rcases hb' with hdigit | hplus | hminus
  · rw [hb.1] at hdigit
    cases hdigit
  · exact hb.2.1 hplus
  · exact hb.2.2 hminus

/-- A keyword that stands for a value. -/
theorem recognises_word {α β : Type} {f : Located Text → α} {v : α → β} (t : String) (b : β)
    (hf : ∀ l, v (f l) = b) :
    Recognises ((word t).map f).scan v fun b' s r => b' = b ∧ Keyword (ascii t) s r :=
  (recognises_keyword _).constant b hf

/-- The second operand of a summand is the accumulator or a temporary register. -/
theorem recognises_register :
    Recognises (oneOf [(word "acc").map fun _ => none, temp.map some]).scan (Option.map (·.value))
      RegisterText := by
  have hacc : Recognises ((word "acc").map fun _ => (none : Option (Located Int))).scan
      (Option.map (·.value)) fun t s r => t = none ∧ Keyword (ascii "acc") s r :=
    recognises_word "acc" none fun _ => rfl
  have htemp : Recognises (temp.map some).scan (Option.map (·.value))
      fun t s r => ∃ i, t = some i ∧ TempText i s r :=
    (recognises_temp.comp some).map fun _ => rfl
  refine (Recognises.oneOf (.cons hacc (.cons htemp .nil))).congr fun t s r => ?_
  rw [firstOf_cons_iff, firstOf_singleton]
  · cases t with
    | none => simp [RegisterText]
    | some i => simp [RegisterText]
  · rw [firstOf_singleton]
    rintro ⟨i, -, hi⟩ r' t' ⟨-, ht'⟩
    exact not_keyword_of_head? hi.head?_eq (by decide) ht'

/-- The sign of a summand. -/
def signName (negated : Bool) : String :=
  if negated then "-" else "+"

/-- The sign of a summand is written, or it is a plus sign and left out. -/
def SignText (negated : Bool) (s r : Text) : Prop :=
  Mark (ascii (signName negated)) s r ∨
    negated = false ∧ r = s ∧ ∀ n m, ¬ Mark (ascii (signName n)) s m

/-- The two signs are told apart by their first byte. -/
theorem head?_signName_injective {n n' : Bool}
    (h : (ascii (signName n)).head? = (ascii (signName n')).head?) : n = n' := by
  revert h
  cases n <;> cases n' <;> decide

/-- One of the two signs is read exactly. -/
theorem recognises_signMark :
    Recognises (oneOf ([false, true].map fun n => (mark (signName n)).map fun _ => n)).scan id
      fun n => Mark (ascii (signName n)) := by
  have hmark (n : Bool) : Recognises ((mark (signName n)).map fun _ => n).scan id
      fun b s r => b = n ∧ Mark (ascii (signName n)) s r :=
    (recognises_const _).constant n fun _ => rfl
  have hhead {n : Bool} {s r : Text} (h : Mark (ascii (signName n)) s r) :
      s.head? = (ascii (signName n)).head? := by
    cases n with
    | false => exact h.head?_eq
    | true => exact h.head?_eq
  refine (Recognises.oneOf_map hmark ?_).congr fun n s r => ?_
  · rintro n - n' - s b b' r r' ⟨-, h⟩ ⟨-, h'⟩
    exact head?_signName_injective ((hhead h).symm.trans (hhead h'))
  · constructor
    · rintro ⟨n', -, rfl, h⟩
      exact h
    · intro h
      exact ⟨n, by cases n <;> decide, rfl, h⟩

/-- A sign is read as a whole or not at all. -/
theorem atomic_signMark :
    Atomic (oneOf ([false, true].map fun n => (mark (signName n)).map fun _ => n)) := by
  refine Atomic.oneOf fun p hp => ?_
  obtain ⟨n, -, rfl⟩ := List.mem_map.1 hp
  have hne : ascii (signName n) ≠ [] := by cases n <;> decide
  exact (atomic_const hne).map _

/-- A sign that is not there counts as a plus. -/
theorem recognises_sign :
    Recognises (optional (oneOf [(mark "+").map fun _ => false, (mark "-").map fun _ => true])).scan
      (fun sign => sign.getD false) SignText := by
  have hopt := (recognises_signMark.optional_atomic atomic_signMark).comp fun sign => sign.getD false
  refine (hopt.congr fun negated s r => ?_).of_view_eq fun o => ?_
  · constructor
    · rintro ⟨o, rfl, ho⟩
      cases o with
      | some n => exact .inl ho
      | none => exact .inr ⟨rfl, ho.1, fun n m hm => ho.2 ⟨n, m, hm⟩⟩
    · rintro (h | ⟨rfl, rfl, hno⟩)
      · exact ⟨some negated, rfl, h⟩
      · exact ⟨none, rfl, rfl, fun ⟨n, m, hm⟩ => hno n m hm⟩
  · cases o <;> rfl

/-- The second summand of a multiplication. -/
def SummandText (b : Bool × Option Int) (s r : Text) : Prop :=
  ∃ m, SignText b.1 s m ∧ RegisterText b.2 (skipGaps m) r

theorem recognises_summand : Recognises summand.scan (fun l => l.value.phrase) SummandText := by
  refine Recognises.located (v := Summand.phrase) ?_
  refine (Recognises.bind recognises_sign fun _ negated hn =>
    Recognises.bind recognises_register.token fun _ register hr =>
    Recognises.pure (negated, register) ?_).congr fun b s r => ?_
  · subst_vars
    rfl
  · constructor
    · rintro ⟨negated, m, hm, register, m', hm', rfl, rfl⟩
      exact ⟨m, hm, hm'⟩
    · rintro ⟨m, hm, hm'⟩
      exact ⟨_, m, hm, _, r, hm', rfl, rfl⟩

/-- A target of an output. The keyword `adrs` is not the start of `adrs/s`. -/
def OutputText : Output Int → Text → Text → Prop
  | .yreg, s, r => Keyword (ascii "yreg") s r
  | .adrsShifted, s, r => Keyword (ascii "adrs/s") s r
  | .adrs, s, r => Keyword (ascii "adrs") s r ∧ ∀ m, ¬ Keyword (ascii "adrs/s") s m
  | .mixer i, s, r => IndexedText (ascii "mixer") i s r

/-- The longer spelling of the address register is tried first, so no target hides another. -/
theorem recognises_outputTarget : Recognises outputTarget.scan id OutputText := by
  have hmixer : Recognises
      ((indexed (ascii "mixer")).map fun operand => Output.mixer operand.value.index).scan id
      fun t s r => ∃ i, t = .mixer i ∧ IndexedText (ascii "mixer") i s r :=
    ((recognises_indexed _).comp Output.mixer).map fun _ => rfl
  refine (Recognises.oneOf (.cons (recognises_word "yreg" (.yreg : Output Int) fun _ => rfl)
    (.cons (recognises_word "adrs/s" .adrsShifted fun _ => rfl)
    (.cons (recognises_word "adrs" .adrs fun _ => rfl) (.cons hmixer .nil))))).congr fun t s r => ?_
  -- the first bytes tell all but `adrs` and `adrs/s` apart, and of these the longer one is tried first
  cases t with
  | yreg => simp [firstOf, OutputText]
  | adrsShifted =>
    have hyreg (h : Keyword (ascii "adrs/s") s r) (m : Text) : ¬ Keyword (ascii "yreg") s m :=
      not_keyword_of_head? h.head?_eq (by decide)
    simpa [firstOf, OutputText] using hyreg
  | adrs =>
    have hyreg (h : Keyword (ascii "adrs") s r) (m : Text) : ¬ Keyword (ascii "yreg") s m :=
      not_keyword_of_head? h.head?_eq (by decide)
    grind [firstOf, OutputText]
  | mixer i =>
    have hyreg (h : IndexedText (ascii "mixer") i s r) (m : Text) : ¬ Keyword (ascii "yreg") s m :=
      not_keyword_of_head? h.choose_spec.1.head?_eq (by decide)
    have hadrs (h : IndexedText (ascii "mixer") i s r) (m : Text) : ¬ Keyword (ascii "adrs") s m :=
      not_keyword_of_head? h.choose_spec.1.head?_eq (by decide)
    have hshifted (h : IndexedText (ascii "mixer") i s r) (m : Text) : ¬ Keyword (ascii "adrs/s") s m :=
      not_keyword_of_head? h.choose_spec.1.head?_eq (by decide)
    grind [firstOf, OutputText]

/-- What is multiplied. -/
def MultiplicandText : Multiplicand Int → Text → Text → Prop
  | .input => Keyword (ascii "input")
  | .temp i => TempText i

theorem recognises_multiplicand : Recognises multiplicand.scan (·.value) MultiplicandText := by
  have htemp : Recognises (temp.map (Located.map Multiplicand.temp)).scan (·.value)
      fun x s r => ∃ i, x = .temp i ∧ TempText i s r :=
    (recognises_temp.comp Multiplicand.temp).map fun _ => rfl
  refine (Recognises.oneOf (.cons (recognises_word "input" Multiplicand.input fun _ => rfl)
    (.cons htemp .nil))).congr fun x s r => ?_
  rw [firstOf_cons_iff, firstOf_singleton]
  · cases x with
    | input => simp [MultiplicandText]
    | temp i => simp [MultiplicandText]
  · rw [firstOf_singleton]
    rintro ⟨i, -, hi⟩ r' x' ⟨-, hx'⟩
    exact not_keyword_of_head? hi.head?_eq (by decide) hx'

/-- What it is multiplied by. The keyword `yreg` is not the start of `yreg/l`. -/
def FactorText : Factor Int → Text → Text → Prop
  | .yregLow, s, r => Keyword (ascii "yreg/l") s r
  | .yreg, s, r => Keyword (ascii "yreg") s r ∧ ∀ m, ¬ Keyword (ascii "yreg/l") s m
  | .shifted, s, r => Keyword (ascii "shifted") s r
  | .coefficient v, s, r => Number v s r

/-- The longer spelling of the factor register is tried first, so no factor hides another. -/
theorem recognises_factor : Recognises factor.scan (·.value) FactorText := by
  have hint : Recognises (int.map (Located.map Factor.coefficient)).scan (·.value)
      fun y s r => ∃ v, y = .coefficient v ∧ Number v s r :=
    (recognises_int.comp Factor.coefficient).map fun _ => rfl
  refine (Recognises.oneOf (.cons (recognises_word "yreg/l" Factor.yregLow fun _ => rfl)
    (.cons (recognises_word "yreg" .yreg fun _ => rfl)
    (.cons (recognises_word "shifted" .shifted fun _ => rfl) (.cons hint .nil))))).congr
    fun y s r => ?_
  -- `yreg/l` is tried before `yreg`, and a coefficient starts with a digit or a sign
  cases y with
  | yregLow => simp [firstOf, FactorText]
  | yreg => grind [firstOf, FactorText]
  | shifted =>
    have hyreg (h : Keyword (ascii "shifted") s r) (m : Text) : ¬ Keyword (ascii "yreg") s m :=
      not_keyword_of_head? h.head?_eq (by decide)
    have hlow (h : Keyword (ascii "shifted") s r) (m : Text) : ¬ Keyword (ascii "yreg/l") s m :=
      not_keyword_of_head? h.head?_eq (by decide)
    grind [firstOf, FactorText]
  | coefficient v =>
    have hyreg (h : Number v s r) (m : Text) : ¬ Keyword (ascii "yreg") s m :=
      h.not_keyword (by decide)
    have hlow (h : Number v s r) (m : Text) : ¬ Keyword (ascii "yreg/l") s m :=
      h.not_keyword (by decide)
    have hshifted (h : Number v s r) (m : Text) : ¬ Keyword (ascii "shifted") s m :=
      h.not_keyword (by decide)
    grind [firstOf, FactorText]

/-- Where a store goes. -/
def DestinationText : Destination → Text → Text → Prop
  | .temp i => TempText i
  | .memory a => AddressText a

/-- A temporary register and an address have no text in common: behind the bracket stand different
words. -/
theorem TempText.not_addressText {i : Int} {a : Address} {s r r' : Text} (h : TempText i s r) :
    ¬ AddressText a s r' := by
  rintro ⟨m₁, h₁, m₂, ⟨m, hmadrs, -⟩, -⟩
  obtain ⟨n, hn, n', ⟨k, htemp, -⟩, -⟩ := h
  -- the text has a bracket, so the address has read it as well
  have hm₁ : m₁ = n := by
    cases ho : a.opened with
    | true =>
      rw [ho] at h₁
      exact List.append_cancel_left ((show s = _ from h₁).symm.trans hn)
    | false =>
      rw [ho] at h₁
      exact absurd hn (h₁.2 n)
  subst hm₁
  have hword := (htemp.takeWhile_eq (by decide)).symm.trans (hmadrs.takeWhile_eq (by decide))
  exact absurd hword (by decide)

/-- A temporary register and an address are told apart by the word behind the bracket. -/
theorem recognises_destination : Recognises destination.scan (·.value) DestinationText := by
  have htemp : Recognises (temp.map (Located.map Destination.temp)).scan (·.value)
      fun x s r => ∃ i, x = .temp i ∧ TempText i s r :=
    (recognises_temp.comp Destination.temp).map fun _ => rfl
  have hmemory : Recognises (address.map (Located.map Destination.memory)).scan (·.value)
      fun x s r => ∃ a, x = .memory a ∧ AddressText a s r :=
    (recognises_address.comp Destination.memory).map fun _ => rfl
  refine (Recognises.oneOf (.cons htemp (.cons hmemory .nil))).congr fun x s r => ?_
  rw [firstOf_cons_iff, firstOf_singleton]
  · cases x with
    | temp i => simp [DestinationText]
    | memory a => simp [DestinationText]
  · rw [firstOf_singleton]
    rintro ⟨a, -, ha⟩ r' x' ⟨i, -, hi⟩
    exact hi.not_addressText ha

/-! ## Families of keywords -/

/-- Keywords that are words and stand for different values have no text in common. -/
theorem recognises_words {ι : Type} {l : List ι} (name : ι → String)
    (hword : ∀ i ∈ l, ∀ b ∈ ascii (name i), Text.isWord b = true)
    (hinj : ∀ i ∈ l, ∀ j ∈ l, ascii (name i) = ascii (name j) → i = j) :
    Recognises (oneOf (l.map fun i => (word (name i)).map fun _ => i)).scan id
      fun i s r => i ∈ l ∧ Keyword (ascii (name i)) s r := by
  refine (Recognises.oneOf_map (fun i => recognises_word (name i) i fun _ => rfl) ?_).congr
    fun i s r => ?_
  · rintro i hi j hj s b b' r r' ⟨-, h⟩ ⟨-, h'⟩
    have heq := (h.takeWhile_eq (hword i hi)).symm.trans (h'.takeWhile_eq (hword j hj))
    exact hinj i hi j hj heq
  · constructor
    · rintro ⟨j, hj, rfl, h⟩
      exact ⟨hj, h⟩
    · rintro ⟨hi, h⟩
      exact ⟨i, hi, rfl, h⟩

/-- The name of a mode is a keyword, so no mode is read as the beginning of another one. -/
theorem recognises_mode :
    Recognises (oneOf (ShiftMode.all.map fun m => (word m.name).map fun _ => m)).scan id
      fun m => Keyword (ascii m.name) := by
  refine (recognises_words ShiftMode.name (by decide) (by decide)).congr fun m s r => ?_
  exact and_iff_right (by cases m <;> decide)

/-- The spelling of an operation code. -/
def opcodeName (plain noFloat : String) (nf : Bool) : String :=
  if nf then noFloat else plain

/-- Two spellings of an operation code are told apart although one is the beginning of the other. -/
theorem recognises_opcode {plain noFloat : String}
    (hword : ∀ nf, ∀ b ∈ ascii (opcodeName plain noFloat nf), Text.isWord b = true)
    (hne : ascii noFloat ≠ ascii plain) :
    Recognises (opcode plain noFloat).scan id fun nf => Keyword (ascii (opcodeName plain noFloat nf)) := by
  have hinj : ∀ i ∈ [true, false], ∀ j ∈ [true, false],
      ascii (opcodeName plain noFloat i) = ascii (opcodeName plain noFloat j) → i = j := by
    intro i _ j _ h
    cases i <;> cases j
    · rfl
    · exact absurd h.symm hne
    · exact absurd h hne
    · rfl
  refine (recognises_words (opcodeName plain noFloat) (fun i _ => hword i) hinj).congr fun nf s r => ?_
  exact and_iff_right (by cases nf <;> decide)

/-- The banks are told apart by their names. -/
theorem recognises_bank :
    Recognises (oneOf (Bank.all.map bank)).scan id fun x => IndexedText (ascii x.1.name) x.2 := by
  have hbank (b : Bank) : Recognises (bank b).scan id
      fun x s r => x.1 = b ∧ IndexedText (ascii b.name) x.2 s r := by
    refine Recognises.congr (Recognises.map (w := id) ((recognises_indexed _).comp (Prod.mk b))
      fun _ => rfl) fun x s r => ?_
    constructor
    · rintro ⟨i, rfl, h⟩
      exact ⟨rfl, h⟩
    · rintro ⟨rfl, h⟩
      exact ⟨x.2, rfl, h⟩
  have hword : ∀ b ∈ Bank.all, ∀ c ∈ ascii b.name, Text.isWord c = true := by decide
  have hinj : ∀ b ∈ Bank.all, ∀ c ∈ Bank.all, ascii b.name = ascii c.name → b = c := by decide
  refine (Recognises.oneOf_map hbank ?_).congr fun x s r => ?_
  · rintro b hb c hc s x x' r r' ⟨-, m, h, -⟩ ⟨-, m', h', -⟩
    exact hinj b hb c hc ((h.takeWhile_eq (hword b hb)).symm.trans (h'.takeWhile_eq (hword c hc)))
  · constructor
    · rintro ⟨b, -, rfl, h⟩
      exact h
    · intro h
      exact ⟨x.1, by cases x.1 <;> decide, rfl, h⟩

/-! ## Directives -/

/-- The text of a directive. -/
def PhraseText : Phrase → Text → Text → Prop
  | .madrs i value, s, r =>
    ∃ m₁, Mark (ascii "MADRS") s m₁ ∧ ∃ m₂, Mark (ascii "[") (skipGaps m₁) m₂ ∧
      ∃ m₃, Number i (skipGaps m₂) m₃ ∧ ∃ m₄, Mark (ascii "]") (skipGaps m₃) m₄ ∧
      ∃ m₅, Mark (ascii "=") (skipGaps m₄) m₅ ∧ Remainder value (skipGaps m₅) r
  | .input bank i, s, r =>
    ∃ m, Keyword (ascii "INPUT") s m ∧ IndexedText (ascii bank.name) i (skipGaps m) r
  | .output target, s, r =>
    ∃ m, Keyword (ascii "OUTPUT") s m ∧ OutputText target (skipGaps m) r
  | .mac x y b, s, r =>
    ∃ m₁, Keyword (ascii "MAC") s m₁ ∧ ∃ m₂, MultiplicandText x (skipGaps m₁) m₂ ∧
      ∃ m₃, Mark (ascii ",") (skipGaps m₂) m₃ ∧ ∃ m₄, FactorText y (skipGaps m₃) m₄ ∧
      Maybe (fun s => ∃ r, Mark (ascii ",") s r)
        (fun b s r => ∃ m, Mark (ascii ",") s m ∧ SummandText b (skipGaps m) r) b (skipGaps m₄) r
  | .smode mode, s, r =>
    ∃ m, Keyword (ascii "SMODE") s m ∧ Keyword (ascii mode.name) (skipGaps m) r
  | .store nf destination, s, r =>
    ∃ m, Keyword (ascii (opcodeName "ST" "STF" nf)) s m ∧ DestinationText destination (skipGaps m) r
  | .load nf address i, s, r =>
    ∃ m₁, Keyword (ascii (opcodeName "LD" "LDF" nf)) s m₁ ∧ ∃ m₂, AddressText address (skipGaps m₁) m₂ ∧
      ∃ m₃, Mark (ascii ",") (skipGaps m₂) m₃ ∧ IndexedText (ascii "mems") i (skipGaps m₃) r

end Parser

namespace DirectiveKind

open Microcode.Parser

/-- What a kind reads: the phrases of this kind. -/
def KindText (k : DirectiveKind) (p : Phrase) (s r : Text) : Prop :=
  p.kind = k ∧ PhraseText p s r

/-- A line of the address table is read exactly as its grammar says. -/
theorem recognises_madrs : Recognises madrsScan Directive.phrase (KindText .madrs) := by
  refine ((recognises_const _).seq <| (recognises_const _).token.seq <|
    recognises_int.token.bind fun _ index hi => (recognises_const _).token.seq <|
    (recognises_const _).token.seq <| recognises_rest.token.bind fun _ value hv =>
    Recognises.pure (Phrase.madrs index value) ?_).congr fun p s r => ?_
  · subst_vars
    rfl
  · constructor
    · rintro ⟨m₁, h₁, m₂, h₂, index, m₃, h₃, m₄, h₄, m₅, h₅, value, m₆, h₆, rfl, rfl⟩
      exact ⟨rfl, m₁, h₁, m₂, h₂, m₃, h₃, m₄, h₄, m₅, h₅, h₆⟩
    · rintro ⟨hk, h⟩
      cases p <;> cases hk
      obtain ⟨m₁, h₁, m₂, h₂, m₃, h₃, m₄, h₄, m₅, h₅, h₆⟩ := h
      exact ⟨m₁, h₁, m₂, h₂, _, m₃, h₃, m₄, h₄, m₅, h₅, _, r, h₆, rfl, rfl⟩

theorem recognises_input : Recognises inputScan Directive.phrase (KindText .input) := by
  refine ((recognises_keyword _).seq <| recognises_bank.token.bind fun _ x hx =>
    Recognises.pure (Phrase.input x.1 x.2) ?_).congr fun p s r => ?_
  · subst hx
    rfl
  · constructor
    · rintro ⟨m₁, h₁, x, m₂, h₂, rfl, rfl⟩
      exact ⟨rfl, m₁, h₁, h₂⟩
    · rintro ⟨hk, h⟩
      cases p <;> cases hk
      obtain ⟨m₁, h₁, h₂⟩ := h
      exact ⟨m₁, h₁, (_, _), r, h₂, rfl, rfl⟩

theorem recognises_output : Recognises outputScan Directive.phrase (KindText .output) := by
  refine ((recognises_keyword _).seq <| recognises_outputTarget.token.bind fun _ target ht =>
    Recognises.pure (Phrase.output target) ?_).congr fun p s r => ?_
  · subst ht
    rfl
  · constructor
    · rintro ⟨m₁, h₁, target, m₂, h₂, rfl, rfl⟩
      exact ⟨rfl, m₁, h₁, h₂⟩
    · rintro ⟨hk, h⟩
      cases p <;> cases hk
      obtain ⟨m₁, h₁, h₂⟩ := h
      exact ⟨m₁, h₁, _, r, h₂, rfl, rfl⟩

/-- A multiplication is read exactly as its grammar says, with its summand or without. -/
theorem recognises_mac : Recognises macScan Directive.phrase (KindText .mac) := by
  have hsummand := (recognises_const (ascii ",")).optional_preceded (atomic_const (by decide))
    recognises_summand.spaced
  refine ((recognises_keyword _).seq <| recognises_multiplicand.token.bind fun _ x hx =>
    (recognises_const _).token.seq <| recognises_factor.token.bind fun _ y hy =>
    hsummand.token.bind fun _ b hb =>
    Recognises.pure (Phrase.mac x y b) ?_).congr fun p s r => ?_
  · subst_vars
    rfl
  · constructor
    · rintro ⟨m₁, h₁, x, m₂, h₂, m₃, h₃, y, m₄, h₄, b, m₅, h₅, rfl, rfl⟩
      exact ⟨rfl, m₁, h₁, m₂, h₂, m₃, h₃, m₄, h₄, h₅⟩
    · rintro ⟨hk, h⟩
      cases p <;> cases hk
      obtain ⟨m₁, h₁, m₂, h₂, m₃, h₃, m₄, h₄, h₅⟩ := h
      exact ⟨m₁, h₁, _, m₂, h₂, m₃, h₃, _, m₄, h₄, _, r, h₅, rfl, rfl⟩

theorem recognises_smode : Recognises smodeScan Directive.phrase (KindText .smode) := by
  refine ((recognises_keyword _).seq <| recognises_mode.token.bind fun _ mode hm =>
    Recognises.pure (Phrase.smode mode) ?_).congr fun p s r => ?_
  · subst hm
    rfl
  · constructor
    · rintro ⟨m₁, h₁, mode, m₂, h₂, rfl, rfl⟩
      exact ⟨rfl, m₁, h₁, h₂⟩
    · rintro ⟨hk, h⟩
      cases p <;> cases hk
      obtain ⟨m₁, h₁, h₂⟩ := h
      exact ⟨m₁, h₁, _, r, h₂, rfl, rfl⟩

theorem recognises_store : Recognises storeScan Directive.phrase (KindText .store) := by
  refine ((recognises_opcode (by decide) (by decide)).bind fun _ nf hn =>
    recognises_destination.token.bind fun _ destination hd =>
    Recognises.pure (Phrase.store nf destination) ?_).congr fun p s r => ?_
  · subst_vars
    rfl
  · constructor
    · rintro ⟨nf, m₁, h₁, destination, m₂, h₂, rfl, rfl⟩
      exact ⟨rfl, m₁, h₁, h₂⟩
    · rintro ⟨hk, h⟩
      cases p <;> cases hk
      obtain ⟨m₁, h₁, h₂⟩ := h
      exact ⟨_, m₁, h₁, _, r, h₂, rfl, rfl⟩

theorem recognises_load : Recognises loadScan Directive.phrase (KindText .load) := by
  refine ((recognises_opcode (by decide) (by decide)).bind fun _ nf hn =>
    recognises_address.token.bind fun _ address ha => (recognises_const _).token.seq <|
    (recognises_indexed _).token.bind fun _ register hr =>
    Recognises.pure (Phrase.load nf address register) ?_).congr fun p s r => ?_
  · subst_vars
    rfl
  · constructor
    · rintro ⟨nf, m₁, h₁, address, m₂, h₂, m₃, h₃, register, m₄, h₄, rfl, rfl⟩
      exact ⟨rfl, m₁, h₁, m₂, h₂, m₃, h₃, h₄⟩
    · rintro ⟨hk, h⟩
      cases p <;> cases hk
      obtain ⟨m₁, h₁, m₂, h₂, m₃, h₃, h₄⟩ := h
      exact ⟨_, m₁, h₁, _, m₂, h₂, m₃, h₃, _, r, h₄, rfl, rfl⟩

/-- Every kind of directive reads the phrases of its kind. -/
theorem recognises_scan (k : DirectiveKind) : Recognises k.scan Directive.phrase (KindText k) := by
  cases k with
  | madrs => exact recognises_madrs
  | input => exact recognises_input
  | output => exact recognises_output
  | mac => exact recognises_mac
  | smode => exact recognises_smode
  | store => exact recognises_store
  | load => exact recognises_load

/-- The lines that a kind of directive accepts. -/
theorem readLine_parser_eq_ok_iff (k : DirectiveKind) (line : Text) (p : Phrase) :
    (∃ d, k.parser.readLine line = .ok d ∧ d.value.phrase = p) ↔
      p.kind = k ∧ ∃ r, PhraseText p (skipGaps line) r ∧ LineEnd r := by
  rw [readLine_eq_ok_iff (p := k.parser) (recognises_scan k).located]
  simp only [KindText, and_assoc, exists_and_left]

end DirectiveKind

end Microcode
