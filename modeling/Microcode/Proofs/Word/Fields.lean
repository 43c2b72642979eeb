import Mathlib.Algebra.Group.Nat.Defs
import Microcode.Program.Hoist

/-!
# Field algebra of words

What the operations on words do to one field, bit by bit:

* the bits of a mask (`getLsbD_mask`, `getLsbD_maskOf`) and of a field value (`testBit_get`);
* reading a field after each operation (`get_set`, `get_or`, `get_pick`, `get_clear`);
* the same for the presence of a field (`has_or`, `has_pick`, `has_clear`).

After these, no later proof opens a word.
-/

namespace Microcode

namespace Field

/-- Bit `i` belongs to the mask of a field iff it lies in the field's range. -/
theorem getLsbD_mask (f : Field) (i : Nat) :
    f.mask.getLsbD i = (decide (f.offset ≤ i) && decide (i < f.offset + f.width)) := by
  have hle := f.offset_add_width_le
  unfold mask Field.max
  rw [BitVec.getLsbD_shiftLeft, BitVec.getLsbD_ofNat, Nat.one_shiftLeft, Nat.testBit_two_pow_sub_one]
  by_cases ho : f.offset ≤ i
  · by_cases hi : i < f.offset + f.width
    · have h64 : i < 64 := by omega
      have hsub : i - f.offset < f.width := by omega
      simp [ho, hi, h64, hsub, show i - f.offset < 64 by omega]
    · have hsub : ¬ i - f.offset < f.width := by omega
      simp [hi, hsub]
  · have hlt : i < f.offset := by omega
    simp [ho, hlt]

/-- A bit of one field is no bit of another. -/
theorem getLsbD_mask_eq_false {f g : Field} (hne : g ≠ f) {i : Nat} (hi : i < g.width) :
    f.mask.getLsbD (g.offset + i) = false := by
  rw [getLsbD_mask]
  rcases disjoint hne with h | h
  · simp [show ¬ f.offset ≤ g.offset + i by omega]
  · simp [show ¬ g.offset + i < f.offset + f.width by omega]

/-- Every bit of a field belongs to its mask. -/
theorem getLsbD_mask_eq_true (f : Field) {i : Nat} (hi : i < f.width) :
    f.mask.getLsbD (f.offset + i) = true := by
  rw [getLsbD_mask]
  simp [hi]

end Field

namespace Word

/-! ## Bits -/

/-- Bit `i` of a field value is bit `offset + i` of the word. -/
theorem testBit_get (w : Word) (f : Field) (i : Nat) :
    (w.get f).testBit i = (decide (i < f.width) && w.bits.getLsbD (f.offset + i)) := by
  unfold get
  rw [BitVec.testBit_toNat, BitVec.getLsbD_ushiftRight, BitVec.getLsbD_and]
  by_cases hi : i < f.width
  · rw [f.getLsbD_mask_eq_true hi]
    simp [hi]
  · have hmask : f.mask.getLsbD (f.offset + i) = false := by
      rw [Field.getLsbD_mask]
      simp [hi]
    rw [hmask]
    simp [hi]

/-- A bit of the word that belongs to a field is a bit of the field's value. -/
theorem getLsbD_eq_testBit_get (w : Word) {f : Field} {i : Nat} (h : f.mask.getLsbD i = true) :
    w.bits.getLsbD i = (w.get f).testBit (i - f.offset) := by
  rw [Field.getLsbD_mask, Bool.and_eq_true, decide_eq_true_eq, decide_eq_true_eq] at h
  rw [testBit_get, show f.offset + (i - f.offset) = i by omega]
  simp [show i - f.offset < f.width by omega]

/-- Bit `i` belongs to the mask of a list iff it belongs to the mask of a member. -/
theorem getLsbD_maskOf (fs : List Field) (i : Nat) :
    (maskOf fs).getLsbD i = fs.any fun f => f.mask.getLsbD i := by
  induction fs with
  | nil => simp
  | cons f fs ih =>
    rw [maskOf_cons, BitVec.getLsbD_or, ih]
    rfl

/-- A bit of a field belongs to the mask of a list iff the field is a member. -/
theorem getLsbD_maskOf_field (fs : List Field) (f : Field) {i : Nat} (hi : i < f.width) :
    (maskOf fs).getLsbD (f.offset + i) = decide (f ∈ fs) := by
  rw [getLsbD_maskOf]
  by_cases hf : f ∈ fs
  · rw [decide_eq_true hf, List.any_eq_true]
    exact ⟨f, hf, f.getLsbD_mask_eq_true hi⟩
  · rw [decide_eq_false hf, List.any_eq_false]
    intro g hg
    have hne : f ≠ g := fun h => hf (h ▸ hg)
    rw [Field.getLsbD_mask_eq_false hne hi]
    decide

/-- The mask of a list depends on its members only, not on their order or number. -/
theorem maskOf_congr {fs gs : List Field} (h : ∀ f, f ∈ fs ↔ f ∈ gs) : maskOf fs = maskOf gs := by
  apply BitVec.eq_of_getLsbD_eq
  intro i _
  rw [getLsbD_maskOf, getLsbD_maskOf, Bool.eq_iff_iff, List.any_eq_true, List.any_eq_true]
  simp only [h]

/-- Two field values with the same bits are equal; only the bits below the width matter. -/
theorem get_eq_of_testBit {w : Word} {f : Field} {n : Nat} (hn : n < 2 ^ f.width)
    (h : ∀ i, i < f.width → w.bits.getLsbD (f.offset + i) = n.testBit i) : w.get f = n := by
  apply Nat.eq_of_testBit_eq
  intro i
  rw [testBit_get]
  by_cases hi : i < f.width
  · rw [h i hi, decide_eq_true hi, Bool.true_and]
  · have hpow : 2 ^ f.width ≤ 2 ^ i := Nat.pow_le_pow_right (by decide) (by omega)
    rw [Nat.testBit_lt_two_pow (Nat.lt_of_lt_of_le hn hpow)]
    simp [hi]

/-- A field value fits the width of the field. -/
theorem get_lt (w : Word) (f : Field) : w.get f < 2 ^ f.width := by
  apply Nat.lt_pow_two_of_testBit
  intro i hi
  rw [testBit_get]
  simp [show ¬ i < f.width by omega]

/-! ## Values of fields -/

@[simp] theorem get_zero (f : Field) : (0 : Word).get f = 0 := by
  simp [get]

/-- Writing a field and reading one: the written field has the low bits of the number, every other
field is unchanged. -/
theorem get_set (w : Word) (f g : Field) (v : Nat) :
    (w.set f v).get g = if g = f then v % 2 ^ f.width else w.get g := by
  by_cases hgf : g = f
  · subst hgf
    rw [if_pos rfl]
    have hle := g.offset_add_width_le
    apply get_eq_of_testBit (Nat.mod_lt _ (Nat.two_pow_pos _))
    intro i hi
    simp only [set, BitVec.getLsbD_or, BitVec.getLsbD_and, BitVec.getLsbD_not, BitVec.getLsbD_shiftLeft,
      BitVec.getLsbD_ofNat, g.getLsbD_mask_eq_true hi, Nat.testBit_mod_two_pow]
    simp [hi, show g.offset + i < 64 by omega, show i < 64 by omega]
  · rw [if_neg hgf]
    apply get_eq_of_testBit (get_lt w g)
    intro i hi
    have hle := g.offset_add_width_le
    simp only [set, BitVec.getLsbD_or, BitVec.getLsbD_and, BitVec.getLsbD_not,
      Field.getLsbD_mask_eq_false hgf hi, testBit_get]
    simp [hi, show g.offset + i < 64 by omega]

/-- A field takes the low bits of what is written to it. -/
theorem get_set_self (w : Word) (f : Field) (v : Nat) : (w.set f v).get f = v % 2 ^ f.width := by
  rw [get_set, if_pos rfl]

/-- Writing a field leaves the others alone. -/
theorem get_set_of_ne (w : Word) {f g : Field} (h : g ≠ f) (v : Nat) : (w.set f v).get g = w.get g := by
  rw [get_set, if_neg h]

/-- A field of a union is the union of the fields. -/
theorem get_or (v w : Word) (f : Field) : (v ||| w).get f = v.get f ||| w.get f := by
  apply get_eq_of_testBit (Nat.or_lt_two_pow (get_lt v f) (get_lt w f))
  intro i hi
  rw [bits_or, BitVec.getLsbD_or, Nat.testBit_or, testBit_get, testBit_get]
  simp [hi]

/-- Picking keeps the picked fields and empties the others. -/
theorem get_pick (w : Word) (fs : List Field) (f : Field) :
    (w.pick fs).get f = if f ∈ fs then w.get f else 0 := by
  apply get_eq_of_testBit
  · split
    · exact get_lt w f
    · exact Nat.two_pow_pos _
  · intro i hi
    simp only [pick, BitVec.getLsbD_and]
    rw [getLsbD_maskOf_field fs f hi]
    by_cases hf : f ∈ fs
    · rw [if_pos hf, testBit_get]
      simp [hf, hi]
    · simp [hf]

/-- Clearing empties the cleared fields and keeps the others. -/
theorem get_clear (w : Word) (fs : List Field) (f : Field) :
    (w.clear fs).get f = if f ∈ fs then 0 else w.get f := by
  have hle := f.offset_add_width_le
  apply get_eq_of_testBit
  · split
    · exact Nat.two_pow_pos _
    · exact get_lt w f
  · intro i hi
    simp only [clear, BitVec.getLsbD_and, BitVec.getLsbD_not]
    rw [getLsbD_maskOf_field fs f hi]
    by_cases hf : f ∈ fs
    · simp [hf]
    · rw [if_neg hf, testBit_get]
      simp [hf, hi, show f.offset + i < 64 by omega]

/-! ## Presence of fields -/

/-- A field is present iff its value is not zero. -/
theorem has_eq (w : Word) (f : Field) : w.has f = (w.get f != 0) := by
  have hzero : w.bits &&& f.mask = 0 ↔ w.get f = 0 := by
    constructor
    · intro h
      rw [get, h]
      simp
    · intro h
      apply BitVec.eq_of_getLsbD_eq
      intro j hj
      rw [BitVec.getLsbD_and]
      cases hm : f.mask.getLsbD j
      · simp
      · rw [getLsbD_eq_testBit_get w hm, h]
        simp
  unfold has
  by_cases h : w.get f = 0
  · rw [hzero.2 h, h]
    decide
  · have hne : w.bits &&& f.mask ≠ 0 := fun hc => h (hzero.1 hc)
    rw [bne_iff_ne.2 hne, bne_iff_ne.2 h]

/-- A field is present if it is not zero. -/
theorem has_iff {w : Word} {f : Field} : w.has f = true ↔ w.get f ≠ 0 := by
  rw [has_eq, bne_iff_ne]

theorem has_eq_false_iff {w : Word} {f : Field} : w.has f = false ↔ w.get f = 0 := by
  rw [has_eq, bne_eq_false_iff_eq]

@[simp] theorem has_zero (f : Field) : (0 : Word).has f = false := by
  rw [has_eq_false_iff, get_zero]

theorem has_set_of_ne (w : Word) {f g : Field} (h : g ≠ f) (v : Nat) : (w.set f v).has g = w.has g := by
  rw [has_eq, get_set_of_ne w h, has_eq]

/-- A field that is set to one is present. -/
theorem has_set_one (w : Word) (f : Field) : (w.set f 1).has f = true := by
  have hlt : 1 < 2 ^ f.width := Nat.one_lt_two_pow (Nat.pos_iff_ne_zero.1 f.width_pos)
  rw [has_iff, get_set_self, Nat.mod_eq_of_lt hlt]
  decide

theorem has_or (v w : Word) (f : Field) : (v ||| w).has f = (v.has f || w.has f) := by
  rw [Bool.eq_iff_iff, Bool.or_eq_true, has_iff, has_iff, has_iff, get_or]
  rw [Ne, Nat.or_eq_zero_iff, Decidable.not_and_iff_not_or_not]

theorem has_pick (w : Word) (fs : List Field) (f : Field) :
    (w.pick fs).has f = (decide (f ∈ fs) && w.has f) := by
  rw [has_eq, get_pick, has_eq]
  by_cases hf : f ∈ fs <;> simp [hf]

theorem has_clear (w : Word) (fs : List Field) (f : Field) :
    (w.clear fs).has f = (!decide (f ∈ fs) && w.has f) := by
  rw [has_eq, get_clear, has_eq]
  by_cases hf : f ∈ fs <;> simp [hf]

/-! ## Parts of a word

A list of fields cuts a word into the part that `pick` keeps and the part that `clear` keeps. -/

@[simp] theorem or_zero (w : Word) : w ||| 0 = w := by
  ext1
  simp

@[simp] theorem zero_or (w : Word) : 0 ||| w = w := by
  ext1
  simp

@[simp] theorem pick_zero (fs : List Field) : (0 : Word).pick fs = 0 := by
  ext1
  simp [pick]

@[simp] theorem clear_zero (fs : List Field) : (0 : Word).clear fs = 0 := by
  ext1
  simp [clear]

theorem pick_or (v w : Word) (fs : List Field) : (v ||| w).pick fs = v.pick fs ||| w.pick fs := by
  ext i
  simp only [pick, bits_or, BitVec.getElem_and, BitVec.getElem_or, Bool.and_or_distrib_right]

theorem clear_or (v w : Word) (fs : List Field) : (v ||| w).clear fs = v.clear fs ||| w.clear fs := by
  ext i
  simp only [clear, bits_or, BitVec.getElem_and, BitVec.getElem_or, Bool.and_or_distrib_right]

/-- The two parts make up the word. -/
theorem pick_or_clear (w : Word) (fs : List Field) : w.pick fs ||| w.clear fs = w := by
  ext i
  simp only [pick, clear, bits_or, BitVec.getElem_and, BitVec.getElem_or, BitVec.getElem_not]
  cases (maskOf fs)[i] <;> simp

/-- The two parts of a word have no bit in common. -/
theorem pick_and_clear (w : Word) (fs : List Field) : (w.pick fs).bits &&& (w.clear fs).bits = 0 := by
  ext i
  simp only [pick, clear, BitVec.getElem_and, BitVec.getElem_not]
  cases (maskOf fs)[i] <;> simp

@[simp] theorem pick_pick (w : Word) (fs : List Field) : (w.pick fs).pick fs = w.pick fs := by
  ext i
  simp [pick]

@[simp] theorem clear_pick (w : Word) (fs : List Field) : (w.pick fs).clear fs = 0 := by
  ext i
  simp [pick, clear, Bool.and_assoc]

@[simp] theorem pick_clear (w : Word) (fs : List Field) : (w.clear fs).pick fs = 0 := by
  ext i
  simp [pick, clear, Bool.and_assoc]

@[simp] theorem clear_clear (w : Word) (fs : List Field) : (w.clear fs).clear fs = w.clear fs := by
  ext i
  simp [clear]

theorem clear_comm (w : Word) (fs gs : List Field) :
    (w.clear fs).clear gs = (w.clear gs).clear fs := by
  ext1
  simp only [clear, BitVec.and_assoc]
  rw [BitVec.and_comm (~~~maskOf fs)]

/-- The picked part is determined by the values of its fields. -/
theorem pick_congr {v w : Word} {fs : List Field} (h : ∀ f ∈ fs, v.get f = w.get f) :
    v.pick fs = w.pick fs := by
  ext1
  apply BitVec.eq_of_getLsbD_eq
  intro i hi
  simp only [pick, BitVec.getLsbD_and]
  cases hm : (maskOf fs).getLsbD i
  · simp
  · rw [getLsbD_maskOf, List.any_eq_true] at hm
    obtain ⟨f, hf, hbit⟩ := hm
    rw [getLsbD_eq_testBit_get v hbit, getLsbD_eq_testBit_get w hbit, h f hf]

/-- Fields that are all empty contribute no bit. -/
theorem pick_eq_zero {w : Word} {fs : List Field} (h : ∀ f ∈ fs, w.get f = 0) : w.pick fs = 0 := by
  have h0 : w.pick fs = (0 : Word).pick fs := pick_congr fun f hf => by rw [h f hf, get_zero]
  rw [h0, pick_zero]

/-- Lists of fields without a common bit do not disturb each other. -/
theorem pick_clear_of_disjoint (w : Word) {fs gs : List Field} (h : maskOf gs &&& maskOf fs = 0) :
    (w.clear fs).pick gs = w.pick gs := by
  ext i hi
  have hbit : ((maskOf gs)[i] && (maskOf fs)[i]) = false := by
    rw [← BitVec.getElem_and, h]
    simp
  simp only [pick, clear, BitVec.getElem_and, BitVec.getElem_not]
  revert hbit
  cases (maskOf gs)[i] <;> cases (maskOf fs)[i] <;> simp

/-! ## Bits outside all fields -/

theorem getLsbD_maskOf_all {fs : List Field} {i : Nat} (h : (maskOf fs).getLsbD i = true) :
    (maskOf Field.all).getLsbD i = true := by
  rw [getLsbD_maskOf, List.any_eq_true] at h ⊢
  obtain ⟨f, -, hf⟩ := h
  exact ⟨f, Field.mem_all f, hf⟩

/-- A picked part has no bit outside all fields. -/
theorem clear_all_pick (w : Word) (fs : List Field) : (w.pick fs).clear Field.all = 0 := by
  ext1
  apply BitVec.eq_of_getLsbD_eq
  intro i hi
  simp only [pick, clear, BitVec.getLsbD_and, BitVec.getLsbD_not]
  cases hm : (maskOf fs).getLsbD i
  · simp
  · rw [getLsbD_maskOf_all hm]
    simp

theorem clear_all_clear (w : Word) (fs : List Field) :
    (w.clear fs).clear Field.all = w.clear Field.all := by
  have h := congrArg (clear · Field.all) (pick_or_clear w fs)
  simpa only [clear_or, clear_all_pick, zero_or] using h

/-- A word is determined by its fields and the bits outside of them. -/
theorem eq_of_get_eq {v w : Word} (h : ∀ f, v.get f = w.get f)
    (hall : v.clear Field.all = w.clear Field.all) : v = w := by
  rw [← pick_or_clear v Field.all, ← pick_or_clear w Field.all, hall]
  rw [pick_congr fun f _ => h f]

/-- Writing a field changes no bit outside all fields. -/
theorem clear_all_set (w : Word) (f : Field) (v : Nat) :
    (w.set f v).clear Field.all = w.clear Field.all := by
  ext1
  apply BitVec.eq_of_getLsbD_eq
  intro i hi
  simp only [set, clear, BitVec.getLsbD_or, BitVec.getLsbD_and, BitVec.getLsbD_not]
  cases hm : f.mask.getLsbD i
  · simp [hi]
  · have hall : (maskOf Field.all).getLsbD i = true :=
      @getLsbD_maskOf_all [f] i (by simp [hm])
    rw [hall]
    simp

end Word

end Microcode
