import Mathlib.Data.List.TakeWhile
import Microcode.Proofs.Parser.Recognition

/-!
# What tokens recognise

The relations of the parsers that look at bytes: marks, keywords, integers and the rest of a line
(`Mark`, `Keyword`, `Number`, `Remainder`), with the gaps that may stand before a token (`skipGaps`).
A parser that is run on a whole line accepts it if its relation leaves line ends only (`readLine_eq_ok_iff`).
-/

namespace Microcode

/-! ## Separators -/

/-- A set of bytes below 64 has just the bytes that it is given by. -/
theorem ByteSet.has_ofText {t : Text} (ht : ∀ x ∈ t, x.toNat < 64) (b : UInt8) :
    (ofText t).has b = true ↔ b ∈ t := by
  induction t with
  | nil =>
    refine iff_of_false ?_ List.not_mem_nil
    show ¬ (0#64).getLsbD b.toNat = true
    rw [BitVec.getLsbD_zero]
    exact Bool.false_ne_true
  | cons x t ih =>
    obtain ⟨hx, ht⟩ := List.forall_mem_cons.1 ht
    have hmask : (ofText (x :: t)).has b = ((1#64 <<< x.toNat).getLsbD b.toNat || (ofText t).has b) :=
      BitVec.getLsbD_or
    have hbit : (1#64 <<< x.toNat).getLsbD b.toNat = true ↔ b = x := by
      rw [BitVec.getLsbD_shiftLeft, BitVec.getLsbD_one, ← UInt8.toNat_inj]
      simp only [Bool.and_eq_true, decide_eq_true_eq, Bool.not_eq_true', decide_eq_false_iff_not]
      omega
    rw [hmask, Bool.or_eq_true, hbit, ih ht, List.mem_cons]

namespace Parser

variable {α β : Type} {c d : Cursor}

/-- The text from its first byte on that is no gap. -/
def skipGaps (s : Text) : Text :=
  s.dropWhile Text.isGap

/-- What may stand behind the last token of a line. -/
def LineEnd (s : Text) : Prop :=
  ∀ b ∈ s, b ∈ ascii " \t\r\n"

theorem has_gaps : ByteSet.gaps.has = Text.isGap := by
  funext b
  rw [Bool.eq_iff_iff, ByteSet.gaps, ByteSet.has_ofText (by decide)]
  show b ∈ [' '.toUInt8, '\t'.toUInt8] ↔ _
  simp only [List.mem_cons, List.not_mem_nil, or_false, Text.isGap, Bool.or_eq_true, beq_iff_eq]

theorem rest_skip_gaps (c : Cursor) : (ByteSet.gaps.skip c).rest = skipGaps c.rest := by
  show c.rest.dropWhile ByteSet.gaps.has = _
  rw [has_gaps]
  rfl

/-- Nothing is left behind the line ends if there was nothing else. -/
theorem rest_skip_lineEnds_eq_nil_iff (c : Cursor) :
    (ByteSet.lineEnds.skip c).rest = [] ↔ LineEnd c.rest := by
  show c.rest.dropWhile ByteSet.lineEnds.has = [] ↔ _
  rw [List.dropWhile_eq_nil_iff]
  exact forall₂_congr fun b _ => ByteSet.has_ofText (by decide) b

/-- Gaps before a parser. -/
theorem Recognises.spaced {p : Parser α} {v : α → β} {R : β → Text → Text → Prop}
    (h : Recognises p.scan v R) :
    Recognises (spaced .gaps p).scan v fun b s r => R b (skipGaps s) r := by
  have hskip : ∀ c, c.pos ≤ (ByteSet.gaps.skip c).pos := fun c => Nat.le_add_right _ _
  have hok : ∀ {c a d}, (Parser.spaced .gaps p).scan c = .ok (a, d) ↔
      p.scan (ByteSet.gaps.skip c) = .ok (a, d) := by
    intro c a d
    unfold Parser.spaced
    dsimp only
    cases p.scan (ByteSet.gaps.skip c) with
    | ok result => rfl
    | error stop =>
      refine ⟨fun h => ?_, fun h => ?_⟩
      · cases h
      · cases h
  -- of a stop only the position can be another one
  refine ⟨fun {c a d} hx => ?_, fun {c b r} hb => ?_, fun {c a d} hx => ?_, fun {c e} hx => ?_⟩
  · rw [← rest_skip_gaps]
    exact h.sound (hok.1 hx)
  · rw [← rest_skip_gaps] at hb
    obtain ⟨a, d, hx, ha, hr⟩ := h.complete hb
    exact ⟨a, d, hok.2 hx, ha, hr⟩
  · exact Nat.le_trans (hskip c) (h.forward (hok.1 hx))
  · unfold Parser.spaced at hx
    dsimp only at hx
    split at hx
    · cases hx
    · next stop hstop =>
      cases hx
      dsimp only
      split
      · exact Nat.le_refl _
      · exact Nat.le_trans (hskip c) (h.stop hstop)

/-- A parser that reads a token. -/
theorem Recognises.token {p : Parser α} {v : α → β} {R : β → Text → Text → Prop}
    (h : Recognises p.scan v R) : Recognises p.token v fun b s r => R b (skipGaps s) r :=
  h.spaced

/-! ## Texts -/

/-- A scan looks at the text at the cursor once, and goes over a number of bytes or stops at once. -/
structure Stepwise (x : Scan α) (v : α → β) (step : Text → Option (β × Nat)) : Prop where
  ok_of_some : ∀ {c : Cursor} {b : β} {n : Nat}, step c.rest = some (b, n) →
    ∃ a, x c = .ok (a, c.advance n) ∧ v a = b
  error_of_none : ∀ {c : Cursor}, step c.rest = none → ∃ cause, x c = .error ⟨c.pos, cause⟩

namespace Stepwise

variable {x : Scan α} {v : α → β} {step : Text → Option (β × Nat)} {c d : Cursor}

/-- A scan that goes on if the text passes a test. -/
theorem of_test {test : Text → Bool} {value : Text → β} {length : Text → Nat} {a : Cursor → α}
    {cause : Cursor → Failure}
    (hx : ∀ c, x c = if test c.rest then .ok (a c, c.advance (length c.rest)) else .error ⟨c.pos, cause c⟩)
    (hv : ∀ c, v (a c) = value c.rest) :
    Stepwise x v fun s => if test s then some (value s, length s) else none where
  ok_of_some {c b n} h := by
    obtain ⟨htest, hstep⟩ := Option.ite_none_right_eq_some.1 h
    obtain ⟨hb, hn⟩ := Prod.mk.inj (Option.some.inj hstep)
    refine ⟨a c, ?_, (hv c).trans hb⟩
    rw [hx, if_pos htest, hn]
  error_of_none {c} h := by
    have htest : ¬ test c.rest = true := by
      intro htest
      rw [if_pos htest] at h
      exact Option.some_ne_none _ h
    refine ⟨cause c, ?_⟩
    rw [hx, if_neg htest]

/-- A step that succeeds goes over the bytes that the function says. -/
theorem exists_of_ok (h : Stepwise x v step) {a : α} (hx : x c = .ok (a, d)) :
    ∃ n, step c.rest = some (v a, n) ∧ d = c.advance n := by
  cases hstep : step c.rest with
  | none =>
    obtain ⟨cause, hstop⟩ := h.error_of_none hstep
    rw [hx] at hstop
    cases hstop
  | some bn =>
    obtain ⟨b, n⟩ := bn
    obtain ⟨a', hx', rfl⟩ := h.ok_of_some hstep
    rw [hx] at hx'
    cases hx'
    exact ⟨n, rfl, rfl⟩

/-- A step that fails stops where it started. -/
theorem pos_of_error (h : Stepwise x v step) {e : Stop} (hx : x c = .error e) : e.pos = c.pos := by
  cases hstep : step c.rest with
  | none =>
    obtain ⟨cause, hstop⟩ := h.error_of_none hstep
    rw [hx] at hstop
    cases hstop
    rfl
  | some bn =>
    obtain ⟨a, hx', -⟩ := h.ok_of_some hstep
    rw [hx] at hx'
    cases hx'

/-- A scan by steps recognises what the function accepts. -/
theorem recognises (h : Stepwise x v step) :
    Recognises x v fun b s r => ∃ n, step s = some (b, n) ∧ r = s.drop n where
  sound hx := by
    obtain ⟨n, hn, rfl⟩ := h.exists_of_ok hx
    exact ⟨n, hn, rfl⟩
  complete := by
    rintro c b r ⟨n, hn, rfl⟩
    obtain ⟨a, hx, hab⟩ := h.ok_of_some hn
    exact ⟨a, _, hx, hab, rfl⟩
  forward hx := by
    obtain ⟨n, -, rfl⟩ := h.exists_of_ok hx
    exact Nat.le_add_right _ _
  stop hx := (h.pos_of_error hx).ge

/-- Where every step goes over some bytes the scan is an atom. -/
theorem atomic {p : Parser α} (h : Stepwise p.scan v step)
    (hpos : ∀ {s b n}, step s = some (b, n) → 0 < n) : Atomic p where
  progress hx := by
    obtain ⟨n, hn, rfl⟩ := h.exists_of_ok hx
    exact Nat.lt_add_of_pos_right (hpos hn)
  stuck hx := h.pos_of_error hx

end Stepwise

/-- A text starts with the given bytes. -/
def Mark (t s r : Text) : Prop :=
  s = t ++ r

/-- A text starts with the given bytes, and no byte of a word follows them. -/
def Keyword (t s r : Text) : Prop :=
  s = t ++ r ∧ startsWord r = false

/-- A text is empty but for blanks, or all of it is the value. -/
def Remainder (value s r : Text) : Prop :=
  value = s.trim ∧ value ≠ [] ∧ r = []

/-- A text starts with another one if it is that and what is left. -/
theorem isPrefixOf_and_eq_drop_iff {t s r : Text} :
    t.isPrefixOf s = true ∧ r = s.drop t.length ↔ s = t ++ r := by
  rw [List.isPrefixOf_iff_prefix, List.prefix_iff_eq_append]
  constructor
  · rintro ⟨h, rfl⟩
    exact h.symm
  · rintro rfl
    rw [List.drop_left]
    exact ⟨rfl, rfl⟩

theorem stepwise_const (t : Text) : Stepwise (const t).scan (fun _ => ())
    fun s => if t.isPrefixOf s then some ((), t.length) else none :=
  .of_test (fun _ => rfl) fun _ => rfl

theorem stepwise_keyword (t : Text) : Stepwise (keyword t).scan (fun _ => ())
    fun s => if t.isPrefixOf s && !startsWord (s.drop t.length) then some ((), t.length) else none :=
  .of_test (fun _ => rfl) fun _ => rfl

theorem recognises_const (t : Text) : Recognises (const t).scan (fun _ => ()) fun _ => Mark t := by
  refine (stepwise_const t).recognises.congr fun b s r => ?_
  rw [Mark, ← isPrefixOf_and_eq_drop_iff]
  simp only [Option.ite_none_right_eq_some, Option.some.injEq, Prod.mk.injEq, true_and]
  constructor
  · rintro ⟨n, ⟨ht, rfl⟩, hr⟩
    exact ⟨ht, hr⟩
  · rintro ⟨ht, hr⟩
    exact ⟨_, ⟨ht, rfl⟩, hr⟩

/-- A keyword is recognised where no byte of a word follows. -/
theorem recognises_keyword (t : Text) :
    Recognises (keyword t).scan (fun _ => ()) fun _ => Keyword t := by
  refine (stepwise_keyword t).recognises.congr fun b s r => ?_
  rw [Keyword, ← isPrefixOf_and_eq_drop_iff]
  simp only [Option.ite_none_right_eq_some, Option.some.injEq, Prod.mk.injEq, true_and,
    Bool.and_eq_true, Bool.not_eq_true']
  constructor
  · rintro ⟨n, ⟨⟨ht, hword⟩, rfl⟩, rfl⟩
    exact ⟨⟨ht, rfl⟩, hword⟩
  · rintro ⟨⟨ht, rfl⟩, hword⟩
    exact ⟨_, ⟨⟨ht, hword⟩, rfl⟩, rfl⟩

theorem length_pos_of_step {test : Bool} {t : Text} (ht : t ≠ []) {b : Unit} {n : Nat}
    (h : (if test then some ((), t.length) else none) = some (b, n)) : 0 < n := by
  obtain ⟨-, hstep⟩ := Option.ite_none_right_eq_some.1 h
  rw [← (Prod.mk.inj (Option.some.inj hstep)).2]
  exact List.length_pos_iff.2 ht

theorem atomic_const {t : Text} (ht : t ≠ []) : Atomic (const t) :=
  (stepwise_const t).atomic (length_pos_of_step ht)

theorem atomic_keyword {t : Text} (ht : t ≠ []) : Atomic (keyword t) :=
  (stepwise_keyword t).atomic (length_pos_of_step ht)

theorem stepwise_rest : Stepwise rest.scan (·.value)
    fun s => if !s.trim.isEmpty then some (s.trim, s.length) else none := by
  have hscan (c : Cursor) : rest.scan c = if !c.rest.trim.isEmpty then
      .ok (⟨⟨c.pos, c.pos + c.rest.length⟩, c.rest.trim⟩, c.advance c.rest.length)
      else .error ⟨c.pos, .noText⟩ := by
    unfold rest
    dsimp only
    cases c.rest.trim.isEmpty with
    | false => rfl
    | true => rfl
  exact .of_test hscan fun _ => rfl

/-- The rest is recognised if it is not blank. -/
theorem recognises_rest : Recognises rest.scan (·.value) Remainder := by
  refine stepwise_rest.recognises.congr fun b s r => ?_
  simp only [Option.ite_none_right_eq_some, Option.some.injEq, Prod.mk.injEq, Bool.not_eq_true',
    List.isEmpty_eq_false_iff]
  constructor
  · rintro ⟨n, ⟨hs, rfl, rfl⟩, rfl⟩
    exact ⟨rfl, hs, List.drop_length⟩
  · rintro ⟨rfl, hs, rfl⟩
    exact ⟨_, ⟨hs, rfl, rfl⟩, List.drop_length.symm⟩

/-! ## Integers -/

/-- A text starts with a spelling of an integer, and no byte of a word follows it. -/
def Number (v : Int) (s r : Text) : Prop :=
  ∃ t, s = t ++ r ∧ Literal.Spells t v ∧ startsWord r = false

/-- Behind a whole word there is no byte of one. -/
theorem startsWord_dropWhile (s : Text) : startsWord (s.dropWhile Text.isWord) = false := by
  induction s with
  | nil => rfl
  | cons b s ih =>
    rw [List.dropWhile_cons]
    split
    · exact ih
    · next hb => exact Bool.not_eq_true _ ▸ hb

/-- A word ends where no byte of a word follows. -/
theorem takeWhile_isWord_append {t r : Text} (ht : ∀ b ∈ t, Text.isWord b = true)
    (hr : startsWord r = false) : (t ++ r).takeWhile Text.isWord = t := by
  have hnil : r.takeWhile Text.isWord = [] := by
    cases r with
    | nil => rfl
    | cons b r => rw [List.takeWhile_cons, show Text.isWord b = false from hr, if_neg Bool.false_ne_true]
  rw [List.takeWhile_append_of_pos ht, hnil, List.append_nil]

/-- How far an integer goes: over its sign and the bytes of a word behind it. -/
def intLength (s : Text) : Nat :=
  signLength s + (digitsOf s).length

theorem drop_length_takeWhile (p : UInt8 → Bool) (s : Text) :
    s.drop (s.takeWhile p).length = s.dropWhile p := by
  induction s with
  | nil => rfl
  | cons b s ih =>
    rw [List.takeWhile_cons, List.dropWhile_cons]
    split
    · exact ih
    · rfl

theorem startsWord_drop_intLength (s : Text) : startsWord (s.drop (intLength s)) = false := by
  rw [intLength, ← List.drop_drop, digitsOf, drop_length_takeWhile]
  exact startsWord_dropWhile _

/-- A digit is no sign. -/
theorem signLength_of_isDigit {b : UInt8} (hb : Text.isDigit b = true) (s : Text) :
    signLength (b :: s) = 0 := by
  have hsign : (b == '+'.toUInt8 || b == '-'.toUInt8) = false := by
    rw [beq_false_of_ne (Text.ne_of_isDigit hb (by decide)),
      beq_false_of_ne (Text.ne_of_isDigit hb (by decide)), Bool.or_false]
  rw [signLength, hsign, if_neg Bool.false_ne_true]

/-- A spelling before a byte that is not of a word is read to its end. -/
theorem intLength_append {t r : Text} {v : Int} (ht : Literal.Spells t v) (hr : startsWord r = false) :
    digitsOf (t ++ r) ≠ [] ∧ intLength (t ++ r) = t.length := by
  obtain ⟨sign, b, s, rfl, hsign, hb, hword⟩ := ht.exists_digits
  have hlength : signLength (sign ++ b :: s ++ r) = sign.length := by
    rcases hsign with rfl | rfl | rfl
    · exact signLength_of_isDigit hb (s ++ r)
    · rfl
    · rfl
  -- all bytes behind the sign are of words, and the first byte of `r` is not
  have hdigits : digitsOf (sign ++ b :: s ++ r) = b :: s := by
    rw [digitsOf, hlength, List.append_assoc, List.drop_left, takeWhile_isWord_append hword hr]
  rw [intLength, hlength, hdigits, List.length_append]
  exact ⟨List.cons_ne_nil b s, rfl⟩

/-- The integer at the start of a text and its length. -/
def intStep? (s : Text) : Option (Int × Nat) :=
  if (digitsOf s).isEmpty then none
  else (Literal.read (s.take (intLength s))).toOption.map fun v => (v, intLength s)

theorem stepwise_int : Stepwise int.scan (·.value) intStep? where
  ok_of_some {c v n} h := by
    obtain ⟨hdigits, h⟩ := Option.ite_none_left_eq_some.1 h
    cases hread : Literal.read (c.rest.take (intLength c.rest)) with
    | error cause =>
      rw [hread] at h
      cases h
    | ok v' =>
      rw [hread] at h
      cases h
      refine ⟨⟨⟨c.pos, c.pos + intLength c.rest⟩, v⟩, ?_, rfl⟩
      unfold intLength at hread
      refine (if_neg hdigits).trans ?_
      rw [hread]
      rfl
  error_of_none {c} h := by
    by_cases hdigits : (digitsOf c.rest).isEmpty = true
    · exact ⟨_, if_pos hdigits⟩
    · rw [intStep?, if_neg hdigits] at h
      cases hread : Literal.read (c.rest.take (intLength c.rest)) with
      | error cause =>
        refine ⟨.badInteger (c.rest.take (intLength c.rest)) cause, (if_neg hdigits).trans ?_⟩
        unfold intLength at hread
        rw [hread]
        rfl
      | ok v =>
        rw [hread] at h
        cases h

/-- An integer is recognised by its spellings, and read to the end of the word. -/
theorem recognises_int : Recognises int.scan (·.value) Number := by
  refine stepwise_int.recognises.congr fun v s r => ?_
  constructor
  · rintro ⟨n, h, rfl⟩
    obtain ⟨-, h⟩ := Option.ite_none_left_eq_some.1 h
    cases hread : Literal.read (s.take (intLength s)) with
    | error cause =>
      rw [hread] at h
      cases h
    | ok v' =>
      rw [hread] at h
      cases h
      exact ⟨s.take (intLength s), (List.take_append_drop _ s).symm, Literal.read_eq_ok_iff.1 hread,
        startsWord_drop_intLength s⟩
  · rintro ⟨t, rfl, ht, hr⟩
    obtain ⟨hdigits, hlength⟩ := intLength_append ht hr
    refine ⟨t.length, ?_, List.drop_left.symm⟩
    rw [intStep?, if_neg (by rwa [List.isEmpty_iff]), hlength, List.take_left,
      Literal.read_eq_ok_iff.2 ht]
    rfl

/-! ## How a text starts -/

theorem Mark.head?_eq {b : UInt8} {t s r : Text} (h : Mark (b :: t) s r) : s.head? = some b := by
  rw [show s = b :: t ++ r from h]
  rfl

theorem Keyword.head?_eq {b : UInt8} {t s r : Text} (h : Keyword (b :: t) s r) : s.head? = some b :=
  Mark.head?_eq h.1

/-- A number starts with a sign or a decimal digit. -/
theorem Number.head?_eq {v : Int} {s r : Text} (h : Number v s r) :
    ∃ b, s.head? = some b ∧ (Text.isDigit b = true ∨ b = '+'.toUInt8 ∨ b = '-'.toUInt8) := by
  obtain ⟨t, rfl, ht, -⟩ := h
  obtain ⟨sign, b, u, rfl, hsign, hb, -⟩ := ht.exists_digits
  rcases hsign with rfl | rfl | rfl
  · exact ⟨b, rfl, .inl hb⟩
  · exact ⟨_, rfl, .inr (.inl rfl)⟩
  · exact ⟨_, rfl, .inr (.inr rfl)⟩

/-- A keyword that is a word is the first word of the text. -/
theorem Keyword.takeWhile_eq {t s r : Text} (ht : ∀ b ∈ t, Text.isWord b = true) (h : Keyword t s r) :
    s.takeWhile Text.isWord = t := by
  rw [h.1]
  exact takeWhile_isWord_append ht h.2

/-! ## Lines -/

/-- A whole line is read if its tokens are and only line ends are left. -/
theorem readLine_eq_ok_iff {p : Parser α} {v : α → β} {R : β → Text → Text → Prop}
    (h : Recognises p.scan v R) (line : Text) (b : β) :
    (∃ a, p.readLine line = .ok a ∧ v a = b) ↔ ∃ r, R b (skipGaps line) r ∧ LineEnd r := by
  constructor
  · rintro ⟨a, ha, rfl⟩
    unfold readLine at ha
    split at ha
    · cases ha
    · next a' c hscan =>
      dsimp only at ha
      split at ha
      · next hempty =>
        cases ha
        -- nothing but line ends is left
        have hend : LineEnd c.rest :=
          (rest_skip_lineEnds_eq_nil_iff c).1 (List.isEmpty_iff.1 hempty)
        exact ⟨c.rest, h.token.sound hscan, hend⟩
      · cases ha
  · rintro ⟨r, hb, hend⟩
    obtain ⟨a, c, hscan, rfl, rfl⟩ := h.token.complete (c := Cursor.ofText line 0) hb
    refine ⟨a, ?_, rfl⟩
    unfold readLine
    rw [hscan]
    exact if_pos (List.isEmpty_iff.2 ((rest_skip_lineEnds_eq_nil_iff c).2 hend))

end Parser

end Microcode
