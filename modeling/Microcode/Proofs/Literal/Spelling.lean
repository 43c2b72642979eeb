import Mathlib.Algebra.Group.Int.Defs
import Mathlib.Algebra.Group.Nat.Defs
import Mathlib.Data.List.Basic
import Microcode.Literal
import Microcode.Proofs.Text.Basic

/-!
# Spellings of integers

The spellings of an integer are described without reading them: digits of a base with single underscores
between them, the base prefixes, and a sign. `Literal.read` accepts exactly these, with the value that they
have (`read_eq_ok_iff`).

Reading stops as soon as a value reaches 2 ^ 64, and a spelling is refused in the end if its value does not
fit 64 signed bits. The first test never refuses more than the second one does, since the value only grows
with every digit (`le_horner`).
-/

namespace Microcode

namespace Literal

/-! ## Digits -/

/-- The number that digits make on top of the value `acc`, the most significant digit first. -/
def horner (base acc : Nat) (ds : List Nat) : Nat :=
  ds.foldl (fun n d => n * base + d) acc

/-- How digits of a base are written: next to each other or with an underscore between two of them. -/
inductive Digits (base : Nat) : List Nat → Text → Prop where
  | last {b : UInt8} {d : Nat} (value : digit? b = some d) (lt : d < base) : Digits base [d] [b]
  | next {b : UInt8} {d : Nat} {ds : List Nat} {s : Text} (value : digit? b = some d) (lt : d < base)
      (rest : Digits base ds s) : Digits base (d :: ds) (b :: s)
  | separated {b : UInt8} {d : Nat} {ds : List Nat} {s : Text} (value : digit? b = some d)
      (lt : d < base) (rest : Digits base ds s) : Digits base (d :: ds) (b :: underscore :: s)

/-- Digits behind a base prefix, from which an underscore may separate them as well. -/
def MarkedDigits (base : Nat) (ds : List Nat) (s : Text) : Prop :=
  Digits base ds s ∨ ∃ t, s = underscore :: t ∧ Digits base ds t

theorem digit?_underscore : digit? underscore = none := by
  decide

theorem ne_underscore_of_digit? {b : UInt8} {d : Nat} (h : digit? b = some d) : b ≠ underscore := by
  rintro rfl
  rw [digit?_underscore] at h
  cases h

/-- A value only grows with further digits. -/
theorem le_horner {base : Nat} (hbase : 0 < base) (acc : Nat) (ds : List Nat) :
    acc ≤ horner base acc ds := by
  induction ds generalizing acc with
  | nil => exact Nat.le_refl acc
  | cons d ds ih =>
    have hmul : acc ≤ acc * base := Nat.le_mul_of_pos_right acc hbase
    have hrest : acc * base + d ≤ horner base (acc * base + d) ds := ih _
    show acc ≤ horner base (acc * base + d) ds
    omega

/-! ## Reading digits -/

/-- A separator has no part in the value. -/
theorem readDigits_underscore (base acc : Nat) (s : Text) :
    readDigits base acc (underscore :: s) = readDigits base acc s := by
  rw [readDigits, if_pos (beq_self_eq_true underscore)]

/-- A digit is added to the value as long as it fits. -/
theorem readDigits_digit {base acc d : Nat} {b : UInt8} {s : Text} (value : digit? b = some d)
    (lt : d < base) (fits : acc * base + d < 2 ^ 64) :
    readDigits base acc (b :: s) = readDigits base (acc * base + d) s := by
  have hb : (b == underscore) = false := beq_false_of_ne (ne_underscore_of_digit? value)
  rw [readDigits, hb, if_neg Bool.false_ne_true, value]
  dsimp only
  rw [if_neg (Nat.not_le.2 lt), if_neg (by rw [Nat.one_shiftLeft]; omega)]

/-- Reading goes on behind a byte other than an underscore only if that byte is a digit and the value
fits. -/
theorem digit_of_readDigits_eq_ok {base acc n : Nat} {b : UInt8} {s : Text} (hb : b ≠ underscore)
    (h : readDigits base acc (b :: s) = .ok n) :
    ∃ d, digit? b = some d ∧ d < base ∧ acc * base + d < 2 ^ 64 ∧
      readDigits base (acc * base + d) s = .ok n := by
  rw [readDigits, beq_false_of_ne hb, if_neg Bool.false_ne_true] at h
  cases hd : digit? b with
  | none =>
    rw [hd] at h
    cases h
  | some d =>
    rw [hd] at h
    dsimp only at h
    split at h
    · cases h
    · next hlt =>
      split at h
      · cases h
      · next hfits =>
        rw [Nat.one_shiftLeft] at hfits
        exact ⟨d, rfl, Nat.not_le.1 hlt, Nat.not_le.1 hfits, h⟩

/-- Behind a digit a separator may stand. -/
theorem separated_digit {b : UInt8} (hb : b ≠ underscore) (free : Bool) (s : Text) :
    separated free (b :: s) = separated true s := by
  rw [separated, beq_false_of_ne hb, if_neg Bool.false_ne_true]

/-- Behind a separator there may not be another one. -/
theorem separated_underscore (free : Bool) (s : Text) :
    separated free (underscore :: s) = (free && separated false s) := by
  rw [separated, if_pos (beq_self_eq_true underscore)]

/-- Digits are separated as they should be. -/
theorem Digits.separated_eq {base : Nat} {ds : List Nat} {s : Text} (h : Digits base ds s)
    (free : Bool) : Literal.separated free s = true := by
  induction h generalizing free with
  | last value _ => exact separated_digit (ne_underscore_of_digit? value) free []
  | next value _ _ ih => rw [separated_digit (ne_underscore_of_digit? value), ih]
  | separated value _ _ ih =>
    rw [separated_digit (ne_underscore_of_digit? value), separated_underscore, ih, Bool.and_true]

/-- Digits are read to their value. -/
theorem Digits.readDigits_eq {base : Nat} {ds : List Nat} {s : Text} (h : Digits base ds s) (acc : Nat)
    (fits : horner base acc ds < 2 ^ 64) : readDigits base acc s = .ok (horner base acc ds) := by
  induction h generalizing acc with
  | last value lt => rw [readDigits_digit value lt fits, readDigits]; rfl
  | @next b d ds s value lt _ ih =>
    have hhead : acc * base + d ≤ horner base (acc * base + d) ds := le_horner (by omega) _ ds
    rw [readDigits_digit value lt (Nat.lt_of_le_of_lt hhead fits), ih _ fits]
    rfl
  | @separated b d ds s value lt _ ih =>
    have hhead : acc * base + d ≤ horner base (acc * base + d) ds := le_horner (by omega) _ ds
    rw [readDigits_digit value lt (Nat.lt_of_le_of_lt hhead fits), readDigits_underscore, ih _ fits]
    rfl

/-- Text that is read and has its underscores in place consists of digits. Behind a digit it may also be
empty or go on with an underscore: the second part carries the induction. -/
theorem digits_of_readDigits {base n : Nat} (s : Text) :
    (∀ acc, readDigits base acc s = .ok n → separated false s = true →
      ∃ ds, Digits base ds s ∧ n = horner base acc ds ∧ n < 2 ^ 64) ∧
    (∀ acc, readDigits base acc s = .ok n → separated true s = true →
      s = [] ∧ n = acc ∨ ∃ ds, MarkedDigits base ds s ∧ n = horner base acc ds ∧ n < 2 ^ 64) := by
  -- both statements at once: a separator leads from the second to the first, a digit back again
  induction s with
  | nil =>
    refine ⟨fun acc _ hsep => ?_, fun acc h _ => ?_⟩
    · exact absurd hsep Bool.false_ne_true
    · rw [readDigits, Except.ok.injEq] at h
      exact .inl ⟨rfl, h.symm⟩
  | cons b s ih =>
    by_cases hb : b = underscore
    · subst hb
      refine ⟨fun acc _ hsep => ?_, fun acc h hsep => ?_⟩
      · rw [separated_underscore, Bool.false_and] at hsep
        exact absurd hsep Bool.false_ne_true
      · rw [separated_underscore, Bool.true_and] at hsep
        rw [readDigits_underscore] at h
        obtain ⟨ds, hds, hn⟩ := ih.1 acc h hsep
        exact .inr ⟨ds, .inr ⟨s, rfl, hds⟩, hn⟩
    · -- after a digit both parts go on in the same way
      have hdigit : ∀ acc, readDigits base acc (b :: s) = .ok n → separated true s = true →
          ∃ ds, Digits base ds (b :: s) ∧ n = horner base acc ds ∧ n < 2 ^ 64 := by
        intro acc h hsep
        obtain ⟨d, value, lt, fits, hrest⟩ := digit_of_readDigits_eq_ok hb h
        rcases ih.2 _ hrest hsep with ⟨rfl, rfl⟩ | ⟨ds, hds | ⟨t, rfl, hds⟩, hn⟩
        · exact ⟨[d], .last value lt, rfl, fits⟩
        · exact ⟨d :: ds, .next value lt hds, hn⟩
        · exact ⟨d :: ds, .separated value lt hds, hn⟩
      refine ⟨fun acc h hsep => ?_, fun acc h hsep => ?_⟩
      · rw [separated_digit hb] at hsep
        exact hdigit acc h hsep
      · rw [separated_digit hb] at hsep
        obtain ⟨ds, hds, hn⟩ := hdigit acc h hsep
        exact .inr ⟨ds, .inl hds, hn⟩

/-! ## Magnitudes -/

/-- The base prefixes and their bases. -/
def basePrefixes : List (Text × Nat) :=
  [(ascii "0b", 2), (ascii "0B", 2), (ascii "0o", 8), (ascii "0O", 8), (ascii "0x", 16), (ascii "0X", 16),
    (ascii "0", 8)]

/-- The spellings of a natural number: in decimal without a leading zero, or with a base prefix. -/
inductive Spelled : Text → Nat → Prop where
  | decimal {ds : List Nat} {s : Text} (nonzero : s.head? ≠ some '0'.toUInt8) (digits : Digits 10 ds s) :
      Spelled s (horner 10 0 ds)
  | zero : Spelled (ascii "0") 0
  | based {mark : Text} {base : Nat} {ds : List Nat} {s : Text} (known : (mark, base) ∈ basePrefixes)
      (digits : MarkedDigits base ds s) : Spelled (mark ++ s) (horner base 0 ds)

/-- A magnitude has a value if its digits can be read and are separated as they should be. -/
theorem Magnitude.value_eq_ok_iff {m : Magnitude} {n : Nat} :
    m.value = .ok n ↔ readDigits m.base 0 m.digits = .ok n ∧ separated m.marked m.digits = true := by
  unfold Magnitude.value
  cases readDigits m.base 0 m.digits with
  | error e =>
    refine ⟨fun h => ?_, fun h => ?_⟩
    · cases h
    · cases h.1
  | ok k =>
    show (if separated m.marked m.digits = true then Except.ok k else .error LiteralError.malformed) = .ok n ↔ _
    split
    · next hsep => exact ⟨fun h => ⟨h, hsep⟩, fun h => h.1⟩
    · next hsep =>
      refine ⟨fun h => ?_, fun h => ?_⟩
      · cases h
      · exact absurd h.2 hsep

/-- Digits without a base prefix. -/
theorem value_unmarked_eq_ok_iff {base n : Nat} {s : Text} :
    (Magnitude.mk base false s).value = .ok n ↔
      ∃ ds, Digits base ds s ∧ n = horner base 0 ds ∧ n < 2 ^ 64 := by
  rw [Magnitude.value_eq_ok_iff]
  constructor
  · rintro ⟨h, hsep⟩
    exact (digits_of_readDigits s).1 0 h hsep
  · rintro ⟨ds, hds, rfl, fits⟩
    exact ⟨hds.readDigits_eq 0 fits, hds.separated_eq false⟩

/-- Digits behind a base prefix. There may be none of them: that is the number zero. -/
theorem value_marked_eq_ok_iff {base n : Nat} {s : Text} :
    (Magnitude.mk base true s).value = .ok n ↔
      s = [] ∧ n = 0 ∨ ∃ ds, MarkedDigits base ds s ∧ n = horner base 0 ds ∧ n < 2 ^ 64 := by
  rw [Magnitude.value_eq_ok_iff]
  constructor
  · rintro ⟨h, hsep⟩
    exact (digits_of_readDigits s).2 0 h hsep
  · rintro (⟨rfl, rfl⟩ | ⟨ds, hds | ⟨t, rfl, hds⟩, rfl, fits⟩)
    · exact ⟨rfl, rfl⟩
    · exact ⟨hds.readDigits_eq 0 fits, hds.separated_eq true⟩
    · dsimp only
      rw [readDigits_underscore, separated_underscore, Bool.true_and]
      exact ⟨hds.readDigits_eq 0 fits, hds.separated_eq false⟩

theorem Digits.ne_nil {base : Nat} {ds : List Nat} {s : Text} (h : Digits base ds s) : s ≠ [] := by
  cases h <;> exact List.cons_ne_nil _ _

theorem MarkedDigits.ne_nil {base : Nat} {ds : List Nat} {s : Text} (h : MarkedDigits base ds s) :
    s ≠ [] := by
  obtain hds | ⟨t, rfl, -⟩ := h
  · exact hds.ne_nil
  · exact List.cons_ne_nil _ _

/-! ## Base prefixes -/

/-- Without a leading zero a magnitude is decimal. -/
theorem ofText_of_head?_ne {s : Text} (h : s.head? ≠ some '0'.toUInt8) :
    Magnitude.ofText s = ⟨10, false, s⟩ := by
  have hne : ∀ z t, s = z :: t → (z == '0'.toUInt8) = false := by
    rintro z t rfl
    exact beq_false_of_ne fun hz => h (congrArg some hz)
  unfold Magnitude.ofText
  split
  · next z letter d t => rw [hne _ _ rfl, if_neg Bool.false_ne_true]
  · next z t _ => rw [hne _ _ rfl, if_neg Bool.false_ne_true]
  · rfl

/-- A zero, a base letter and something behind it are digits in that base. -/
theorem ofText_of_baseOfLetter? {letter : UInt8} {base : Nat} {s : Text}
    (h : baseOfLetter? letter = some base) (hs : s ≠ []) :
    Magnitude.ofText ('0'.toUInt8 :: letter :: s) = ⟨base, true, s⟩ := by
  cases s with
  | nil => exact absurd rfl hs
  | cons d s =>
    rw [Magnitude.ofText, if_pos (beq_self_eq_true _), h]

/-- A leading zero alone is a base prefix where no base letter with something behind it follows. -/
theorem ofText_of_octal {s : Text} (h : ∀ letter t, s = letter :: t → t ≠ [] → baseOfLetter? letter = none) :
    Magnitude.ofText ('0'.toUInt8 :: s) = ⟨8, true, s⟩ := by
  match s, h with
  | [], _ => rfl
  | [letter], _ => rfl
  | letter :: d :: t, h =>
    rw [Magnitude.ofText, if_pos (beq_self_eq_true _), h letter (d :: t) rfl (List.cons_ne_nil d t)]

/-- A zero and a base letter are a prefix of that base. -/
theorem mem_basePrefixes_of_baseOfLetter? {letter : UInt8} {base : Nat}
    (h : baseOfLetter? letter = some base) : (['0'.toUInt8, letter], base) ∈ basePrefixes := by
  unfold baseOfLetter? at h
  simp only [Bool.or_eq_true, beq_iff_eq] at h
  split at h
  · next hl =>
    cases h
    rcases hl with rfl | rfl <;> decide
  · split at h
    · next hl =>
      cases h
      rcases hl with rfl | rfl <;> decide
    · split at h
      · next hl =>
        cases h
        rcases hl with rfl | rfl <;> decide
      · cases h

/-- A base prefix is a zero and a base letter, or a zero alone. -/
theorem letter_of_mem_basePrefixes {mark : Text} {base : Nat} (h : (mark, base) ∈ basePrefixes) :
    (∃ letter, mark = ['0'.toUInt8, letter] ∧ baseOfLetter? letter = some base) ∨
      mark = ['0'.toUInt8] ∧ base = 8 := by
  simp only [basePrefixes, List.mem_cons, List.not_mem_nil, or_false, Prod.mk.injEq] at h
  rcases h with ⟨rfl, rfl⟩ | ⟨rfl, rfl⟩ | ⟨rfl, rfl⟩ | ⟨rfl, rfl⟩ | ⟨rfl, rfl⟩ | ⟨rfl, rfl⟩ | ⟨rfl, rfl⟩
  case inr.inr.inr.inr.inr.inr => exact .inr ⟨rfl, rfl⟩
  all_goals exact .inl ⟨_, rfl, by decide⟩

/-- No base letter is an octal digit. -/
theorem le_digit_of_baseOfLetter? {letter : UInt8} {base d : Nat}
    (h : baseOfLetter? letter = some base) (hd : digit? letter = some d) : 8 ≤ d := by
  have hletters : ∀ e ∈ basePrefixes, ∀ b ∈ e.1.tail, 8 ≤ (digit? b).getD 0 := by decide
  have hle := hletters _ (mem_basePrefixes_of_baseOfLetter? h) letter (List.mem_singleton_self letter)
  rwa [hd] at hle

/-- Digits start with a digit, not with a separator. -/
theorem Digits.digit?_head {base : Nat} {ds : List Nat} {b : UInt8} {s : Text}
    (h : Digits base ds (b :: s)) : ∃ d, digit? b = some d ∧ d < base := by
  cases h with
  | last value lt => exact ⟨_, value, lt⟩
  | next value lt _ => exact ⟨_, value, lt⟩
  | separated value lt _ => exact ⟨_, value, lt⟩

/-- Octal digits do not start with a base letter, nor does an underscore before them. -/
theorem baseOfLetter?_eq_none_of_marked {ds : List Nat} {letter : UInt8} {t : Text}
    (h : MarkedDigits 8 ds (letter :: t)) : baseOfLetter? letter = none := by
  obtain hds | ⟨u, hu, -⟩ := h
  · obtain ⟨d, hd, hlt⟩ := hds.digit?_head
    -- base letters are digits, but of larger bases only
    cases hbase : baseOfLetter? letter with
    | none => rfl
    | some base =>
      have hle : 8 ≤ d := le_digit_of_baseOfLetter? hbase hd
      omega
  · obtain ⟨rfl, -⟩ := List.cons.inj hu
    decide

/-- What is read behind a leading zero has a base prefix, or there is nothing. -/
theorem spelled_of_value_ofText_zero {s : Text} {n : Nat}
    (h : (Magnitude.ofText ('0'.toUInt8 :: s)).value = .ok n) :
    Spelled ('0'.toUInt8 :: s) n ∧ n < 2 ^ 64 := by
  -- a zero is a prefix by itself or with a letter; alone it is the number zero
  by_cases hletter : ∃ letter u, s = letter :: u ∧ u ≠ [] ∧ (baseOfLetter? letter).isSome
  · obtain ⟨letter, u, rfl, hu, hsome⟩ := hletter
    obtain ⟨base, hbase⟩ := Option.isSome_iff_exists.1 hsome
    rw [ofText_of_baseOfLetter? hbase hu, value_marked_eq_ok_iff] at h
    rcases h with ⟨hnil, -⟩ | ⟨ds, hds, rfl, fits⟩
    · exact absurd hnil hu
    · exact ⟨.based (mem_basePrefixes_of_baseOfLetter? hbase) hds, fits⟩
  · have hoctal : ∀ letter u, s = letter :: u → u ≠ [] → baseOfLetter? letter = none := by
      intro letter u hs hu
      cases hb : baseOfLetter? letter with
      | none => rfl
      | some base => exact absurd ⟨letter, u, hs, hu, by rw [hb]; rfl⟩ hletter
    rw [ofText_of_octal hoctal, value_marked_eq_ok_iff] at h
    rcases h with ⟨rfl, rfl⟩ | ⟨ds, hds, rfl, fits⟩
    · exact ⟨.zero, by decide⟩
    · have hknown : (ascii "0", 8) ∈ basePrefixes := by decide
      exact ⟨.based hknown hds, fits⟩

/-- A spelling that fits is read to its value. -/
theorem Spelled.value_ofText {t : Text} {n : Nat} (h : Spelled t n) (fits : n < 2 ^ 64) :
    (Magnitude.ofText t).value = .ok n := by
  cases h with
  | decimal nonzero hds =>
    rw [ofText_of_head?_ne nonzero, value_unmarked_eq_ok_iff]
    exact ⟨_, hds, rfl, fits⟩
  | zero => rfl
  | based known hds =>
    rcases letter_of_mem_basePrefixes known with ⟨letter, rfl, hbase⟩ | ⟨rfl, rfl⟩
    · rw [List.cons_append, List.cons_append, List.nil_append,
        ofText_of_baseOfLetter? hbase hds.ne_nil, value_marked_eq_ok_iff]
      exact .inr ⟨_, hds, rfl, fits⟩
    · rw [List.cons_append, List.nil_append, ofText_of_octal, value_marked_eq_ok_iff]
      · exact .inr ⟨_, hds, rfl, fits⟩
      · rintro letter u rfl -
        exact baseOfLetter?_eq_none_of_marked hds

/-- The magnitudes that are read are the spelled numbers below 2 ^ 64. -/
theorem value_ofText_eq_ok_iff {t : Text} {n : Nat} :
    (Magnitude.ofText t).value = .ok n ↔ Spelled t n ∧ n < 2 ^ 64 := by
  refine ⟨fun h => ?_, fun h => h.1.value_ofText h.2⟩
  by_cases hhead : t.head? = some '0'.toUInt8
  · obtain ⟨s, rfl⟩ : ∃ s, t = '0'.toUInt8 :: s := List.head?_eq_some_iff.1 hhead
    exact spelled_of_value_ofText_zero h
  · rw [ofText_of_head?_ne hhead, value_unmarked_eq_ok_iff] at h
    obtain ⟨ds, hds, rfl, fits⟩ := h
    exact ⟨.decimal hhead hds, fits⟩

/-! ## The bytes of a spelling -/

/-- A digit is a byte of a word. -/
theorem isWord_of_digit? {b : UInt8} {d : Nat} (h : digit? b = some d) : Text.isWord b = true := by
  unfold digit? at h
  unfold Text.isWord
  split at h
  · next hdigit => rw [hdigit, Bool.or_true, Bool.true_or]
  · split at h
    · next hlower => rw [hlower, Bool.true_or, Bool.true_or, Bool.true_or]
    · split at h
      · next hupper => rw [hupper, Bool.or_true, Bool.true_or, Bool.true_or]
      · cases h

theorem isDigit_of_digit?_lt {b : UInt8} {d : Nat} (h : digit? b = some d) (hlt : d < 10) :
    Text.isDigit b = true := by
  unfold digit? at h
  split at h
  · next hdigit => exact hdigit
  · split at h
    · obtain rfl := Option.some.inj h
      omega
    · split at h
      · obtain rfl := Option.some.inj h
        omega
      · cases h

theorem Digits.isWord {base : Nat} {ds : List Nat} {s : Text} (h : Digits base ds s) :
    ∀ b ∈ s, Text.isWord b = true := by
  induction h with
  | last value _ => exact List.forall_mem_singleton.2 (isWord_of_digit? value)
  | next value _ _ ih => exact List.forall_mem_cons.2 ⟨isWord_of_digit? value, ih⟩
  | separated value _ _ ih =>
    have hmark : Text.isWord underscore = true := by decide
    exact List.forall_mem_cons.2 ⟨isWord_of_digit? value, List.forall_mem_cons.2 ⟨hmark, ih⟩⟩

theorem MarkedDigits.isWord {base : Nat} {ds : List Nat} {s : Text} (h : MarkedDigits base ds s) :
    ∀ b ∈ s, Text.isWord b = true := by
  obtain hds | ⟨t, rfl, hds⟩ := h
  · exact hds.isWord
  · exact List.forall_mem_cons.2 ⟨by decide, hds.isWord⟩

/-- Base prefixes are made of bytes of words. -/
theorem isWord_of_mem_basePrefixes : ∀ e ∈ basePrefixes, ∀ b ∈ e.1, Text.isWord b = true := by
  decide

/-- A spelling is made of bytes of words. -/
theorem Spelled.isWord {m : Text} {n : Nat} (h : Spelled m n) : ∀ b ∈ m, Text.isWord b = true := by
  cases h with
  | decimal _ hds => exact hds.isWord
  | zero => decide
  | based known hds =>
    exact List.forall_mem_append.2 ⟨isWord_of_mem_basePrefixes _ known, hds.isWord⟩

/-- A magnitude starts with a decimal digit. -/
theorem Spelled.isDigit_head {m : Text} {n : Nat} (h : Spelled m n) :
    ∃ b s, m = b :: s ∧ Text.isDigit b = true := by
  cases h with
  | decimal _ hds =>
    obtain ⟨b, s, rfl⟩ := List.exists_cons_of_ne_nil hds.ne_nil
    obtain ⟨d, hd, hlt⟩ := hds.digit?_head
    exact ⟨b, s, rfl, isDigit_of_digit?_lt hd hlt⟩
  | zero => exact ⟨_, _, rfl, by decide⟩
  | based known hds =>
    rcases letter_of_mem_basePrefixes known with ⟨letter, rfl, -⟩ | ⟨rfl, -⟩
    · exact ⟨_, _, rfl, by decide⟩
    · exact ⟨_, _, rfl, by decide⟩

/-! ## Signs -/

/-- A text is an optional sign and a spelling of a magnitude, and it stands for a signed 64-bit integer. -/
def Spells (t : Text) (v : Int) : Prop :=
  -2 ^ 63 ≤ v ∧ v < 2 ^ 63 ∧
    ∃ m n, Spelled m n ∧ ((t = m ∨ t = '+'.toUInt8 :: m) ∧ v = n ∨ t = '-'.toUInt8 :: m ∧ v = -n)

/-- A magnitude gets its sign if the result has 64 signed bits. -/
theorem signed_eq_ok_iff {negative : Bool} {n : Nat} {v : Int} :
    signed negative n = .ok v ↔
      -2 ^ 63 ≤ v ∧ v < 2 ^ 63 ∧ v = if negative then -(n : Int) else n := by
  unfold signed
  rw [Nat.one_shiftLeft]
  cases negative with
  | true =>
    rw [if_pos rfl, if_pos rfl]
    split
    · rw [Except.ok.injEq]
      omega
    · refine ⟨fun h => ?_, fun h => ?_⟩
      · cases h
      · omega
  | false =>
    rw [if_neg Bool.false_ne_true, if_neg Bool.false_ne_true]
    split
    · rw [Except.ok.injEq]
      omega
    · refine ⟨fun h => ?_, fun h => ?_⟩
      · cases h
      · omega

/-- At most one sign is taken off. -/
theorem splitSign_cases (t : Text) :
    (splitSign t).1 = true ∧ t = '-'.toUInt8 :: (splitSign t).2 ∨
      (splitSign t).1 = false ∧ (t = (splitSign t).2 ∨ t = '+'.toUInt8 :: (splitSign t).2) := by
  unfold splitSign
  split
  · exact .inr ⟨rfl, .inl rfl⟩
  · next b s =>
    split
    · next hminus => exact .inl ⟨rfl, by rw [eq_of_beq hminus]⟩
    · split
      · next hplus => exact .inr ⟨rfl, .inr (by rw [eq_of_beq hplus])⟩
      · exact .inr ⟨rfl, .inl rfl⟩

/-- A spelling without a sign is left as it is. -/
theorem Spelled.splitSign_eq {m : Text} {n : Nat} (h : Spelled m n) : splitSign m = (false, m) := by
  obtain ⟨b, s, rfl, hb⟩ := h.isDigit_head
  have hminus : (b == '-'.toUInt8) = false := beq_false_of_ne (Text.ne_of_isDigit hb (by decide))
  have hplus : (b == '+'.toUInt8) = false := beq_false_of_ne (Text.ne_of_isDigit hb (by decide))
  rw [splitSign, hminus, if_neg Bool.false_ne_true, hplus, if_neg Bool.false_ne_true]

/-- A token is read if its magnitude has a value and the sign fits. -/
theorem read_eq_ok_iff_exists {t : Text} {v : Int} :
    read t = .ok v ↔
      ∃ n, (Magnitude.ofText (splitSign t).2).value = .ok n ∧ signed (splitSign t).1 n = .ok v := by
  have hread : read t =
      (Magnitude.ofText (splitSign t).2).value.bind fun n => signed (splitSign t).1 n := rfl
  rw [hread]
  cases (Magnitude.ofText (splitSign t).2).value with
  | error e =>
    refine ⟨fun h => ?_, fun ⟨n, h, _⟩ => ?_⟩
    · cases h
    · cases h
  | ok k =>
    refine ⟨fun h => ⟨k, rfl, h⟩, fun ⟨n, hn, h⟩ => ?_⟩
    cases hn
    exact h

/-- **Reading accepts exactly the spellings,** with the values that they have. -/
theorem read_eq_ok_iff {t : Text} {v : Int} : read t = .ok v ↔ Spells t v := by
  rw [read_eq_ok_iff_exists]
  constructor
  · rintro ⟨n, hvalue, hsigned⟩
    obtain ⟨hm, -⟩ := value_ofText_eq_ok_iff.1 hvalue
    obtain ⟨hlow, hhigh, hv⟩ := signed_eq_ok_iff.1 hsigned
    refine ⟨hlow, hhigh, (splitSign t).2, n, hm, ?_⟩
    rcases splitSign_cases t with ⟨hneg, ht⟩ | ⟨hneg, ht⟩
    · rw [hneg, if_pos rfl] at hv
      exact .inr ⟨ht, hv⟩
    · rw [hneg, if_neg Bool.false_ne_true] at hv
      exact .inl ⟨ht, hv⟩
  · rintro ⟨hlow, hhigh, m, n, hm, ht⟩
    obtain ⟨negative, hsplit, hv⟩ :
        ∃ negative, splitSign t = (negative, m) ∧ v = if negative then -(n : Int) else n := by
      rcases ht with ⟨rfl | rfl, hv⟩ | ⟨rfl, hv⟩
      · exact ⟨false, hm.splitSign_eq, hv⟩
      · exact ⟨false, rfl, hv⟩
      · exact ⟨true, rfl, hv⟩
    -- a value of 64 signed bits never runs into the bound on magnitudes
    have hfits : n < 2 ^ 64 := by
      cases negative
      · rw [if_neg Bool.false_ne_true] at hv
        omega
      · rw [if_pos rfl] at hv
        omega
    rw [hsplit]
    exact ⟨n, value_ofText_eq_ok_iff.2 ⟨hm, hfits⟩, signed_eq_ok_iff.2 ⟨hlow, hhigh, hv⟩⟩

/-- A spelling starts with a sign or a decimal digit, and bytes of words follow. -/
theorem Spells.exists_digits {t : Text} {v : Int} (h : Spells t v) :
    ∃ sign b s, t = sign ++ b :: s ∧ (sign = [] ∨ sign = ['+'.toUInt8] ∨ sign = ['-'.toUInt8]) ∧
      Text.isDigit b = true ∧ ∀ c ∈ b :: s, Text.isWord c = true := by
  obtain ⟨-, -, m, n, hm, ht⟩ := h
  obtain ⟨b, s, rfl, hb⟩ := hm.isDigit_head
  rcases ht with ⟨rfl | rfl, -⟩ | ⟨rfl, -⟩
  · exact ⟨[], b, s, rfl, .inl rfl, hb, hm.isWord⟩
  · exact ⟨_, b, s, rfl, .inr (.inl rfl), hb, hm.isWord⟩
  · exact ⟨_, b, s, rfl, .inr (.inr rfl), hb, hm.isWord⟩

end Literal

end Microcode
