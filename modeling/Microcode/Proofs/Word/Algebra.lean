import Microcode.Proofs.Word.Fields

/-!
# Independence of fields

A word is a record of its fields with some bits beside them, although all of it is one number: no write
reaches further than the field it names, however large the written number is. Main statement:
`fields_are_independent`.

The equations between words come from `eq_of_get_eq`: two words are equal if they agree in every field and
in the bits beside the fields.
-/

namespace Microcode

namespace Word

/-! ## Writing fields -/

/-- Writing back what was read changes nothing. -/
theorem set_get (w : Word) (f : Field) : w.set f (w.get f) = w := by
  refine eq_of_get_eq (fun g => ?_) (clear_all_set w f _)
  by_cases hg : g = f
  · rw [hg, get_set_self, Nat.mod_eq_of_lt (get_lt w f)]
  · rw [get_set_of_ne w hg]

/-- Of two writes to one field the second one counts. -/
theorem set_set (w : Word) (f : Field) (u v : Nat) : (w.set f u).set f v = w.set f v := by
  refine eq_of_get_eq (fun g => ?_) ?_
  · by_cases hg : g = f
    · rw [hg, get_set_self, get_set_self]
    · rw [get_set_of_ne _ hg, get_set_of_ne _ hg, get_set_of_ne _ hg]
  · rw [clear_all_set, clear_all_set, clear_all_set]

/-- Writes to different fields can be exchanged. -/
theorem set_comm (w : Word) {f g : Field} (h : g ≠ f) (u v : Nat) :
    (w.set f u).set g v = (w.set g v).set f u := by
  refine eq_of_get_eq (fun k => ?_) ?_
  · rw [get_set, get_set, get_set, get_set]
    -- no field is written twice
    by_cases hf : k = f
    · have hg : k ≠ g := fun hg => h (hg.symm.trans hf)
      rw [if_neg hg, if_pos hf, if_pos hf]
    · rw [if_neg hf, if_neg hf]
  · rw [clear_all_set, clear_all_set, clear_all_set, clear_all_set]

/-! ## Lists of fields -/

/-- Collecting the bits of one field after another. -/
theorem foldl_or_mask (b r : BitVec 64) (fs : List Field) :
    fs.foldl (fun r f => r ||| (b &&& f.mask)) r = r ||| (b &&& maskOf fs) := by
  induction fs generalizing r with
  | nil => simp
  | cons f fs ih => rw [List.foldl_cons, ih, maskOf_cons, BitVec.and_or_distrib_left, BitVec.or_assoc]

/-- Removing the bits of one field after another. -/
theorem foldl_and_not_mask (r : BitVec 64) (fs : List Field) :
    fs.foldl (fun r f => r &&& ~~~f.mask) r = r &&& ~~~maskOf fs := by
  induction fs generalizing r with
  | nil => exact BitVec.and_allOnes.symm
  | cons f fs ih => rw [List.foldl_cons, ih, maskOf_cons, BitVec.not_or, BitVec.and_assoc]

/-! ## Rebuilding a word from its entries -/

/-- Writing the fields that are not zero, for some of the fields of a word. -/
theorem get_foldl_set (w v : Word) (fs : List Field) (g : Field) :
    (((fs.map fun f => (f, w.get f)).filter fun e => e.2 != 0).foldl
      (fun u e => u.set e.1 e.2) v).get g = if g ∈ fs ∧ w.get g ≠ 0 then w.get g else v.get g := by
  induction fs generalizing v with
  | nil => exact (if_neg fun h => List.not_mem_nil h.1).symm
  | cons f fs ih =>
    rw [List.map_cons, List.filter_cons]
    by_cases hf : w.get f = 0
    · -- a field that is zero is not written
      rw [if_neg (by simp [hf]), ih]
      by_cases hg : g = f
      · subst hg
        simp [hf]
      · simp [hg]
    · rw [if_pos (by simpa using hf), List.foldl_cons, ih]
      by_cases hg : g = f
      · subst hg
        have hvalue : (v.set g (w.get g)).get g = w.get g := by
          rw [get_set_self, Nat.mod_eq_of_lt (get_lt w g)]
        simp [hf, hvalue]
      · rw [get_set_of_ne v hg]
        simp [hg]

/-- Writing fields sets no bit beside them. -/
theorem clear_all_foldl_set (v : Word) (es : List (Field × Nat)) :
    (es.foldl (fun u e => u.set e.1 e.2) v).clear Field.all = v.clear Field.all := by
  induction es generalizing v with
  | nil => rfl
  | cons e es ih => rw [List.foldl_cons, ih, clear_all_set]

/-- Writing the entries of a word into an empty one gives all of its fields, and nothing beside them. -/
theorem foldl_set_entries (w : Word) :
    w.entries.foldl (fun u e => u.set e.1 e.2) 0 = w.pick Field.all := by
  refine eq_of_get_eq (fun f => ?_) ?_
  · rw [entries, get_foldl_set, get_zero, get_pick, if_pos (Field.mem_all f)]
    split
    · rfl
    · next h => exact (Decidable.not_not.1 fun hne => h ⟨Field.mem_all f, hne⟩).symm
  · rw [clear_all_foldl_set, clear_zero, clear_all_pick]

/-! ## The laws together -/

/-- What holds of a word whose fields are independent of each other. -/
structure IndependentFields (w : Word) : Prop where
  /-- A field takes the low bits of the number that is written to it. -/
  written : ∀ f v, (w.set f v).get f = v % 2 ^ f.width
  /-- No other field changes. -/
  untouched : ∀ f g v, g ≠ f → (w.set f v).get g = w.get g
  restored : ∀ f, w.set f (w.get f) = w
  overwritten : ∀ f u v, (w.set f u).set f v = w.set f v
  exchanged : ∀ f g u v, g ≠ f → (w.set f u).set g v = (w.set g v).set f u
  /-- Bits that belong to no field stay as they are. -/
  outside_set : ∀ f v, (w.set f v).bits &&& ~~~used.bits = w.bits &&& ~~~used.bits
  outside_clear : ∀ fs, (w.clear fs).bits &&& ~~~used.bits = w.bits &&& ~~~used.bits
  /-- Picking and clearing go through a list field by field. -/
  picked : ∀ fs : List Field, (w.pick fs).bits = fs.foldl (fun r f => r ||| (w.bits &&& f.mask)) 0
  cleared : ∀ fs : List Field, (w.clear fs).bits = fs.foldl (fun r f => r &&& ~~~f.mask) w.bits
  /-- A list of fields cuts the word into two parts: one has its fields, the other one all else. -/
  get_parts : ∀ fs f, (w.pick fs).get f = (if f ∈ fs then w.get f else 0) ∧
    (w.clear fs).get f = (if f ∈ fs then 0 else w.get f)
  disjoint : ∀ fs, (w.pick fs).bits &&& (w.clear fs).bits = 0
  union : ∀ fs, w.pick fs ||| w.clear fs = w
  /-- The order of a list and repeated fields in it make no difference. -/
  same_parts : ∀ fs gs : List Field, (∀ f, f ∈ fs ↔ f ∈ gs) →
    w.pick fs = w.pick gs ∧ w.clear fs = w.clear gs
  /-- The entries hold all bits of all fields. -/
  rebuilt : (w.entries.foldl (fun u e => u.set e.1 e.2) (0 : Word)).bits = w.bits &&& used.bits

/-- **The fields of a word are independent.** This holds of all words, also of those with bits that belong to no
field, and for numbers of any size. -/
theorem fields_are_independent (w : Word) : w.IndependentFields where
  written f v := get_set_self w f v
  untouched f g v h := get_set_of_ne w h v
  restored := set_get w
  overwritten := set_set w
  exchanged f g u v h := set_comm w h u v
  outside_set f v := congrArg bits (clear_all_set w f v)
  outside_clear fs := congrArg bits (clear_all_clear w fs)
  picked fs := by
    rw [foldl_or_mask]
    exact BitVec.zero_or.symm
  cleared fs := (foldl_and_not_mask w.bits fs).symm
  get_parts fs f := ⟨get_pick w fs f, get_clear w fs f⟩
  disjoint := pick_and_clear w
  union := pick_or_clear w
  same_parts fs gs h := by
    rw [pick, pick, clear, clear, maskOf_congr h]
    exact ⟨rfl, rfl⟩
  rebuilt := congrArg bits (foldl_set_entries w)

/-- A read with an entry of the address table, and a bit beside all fields. -/
def strayRead : Word := ⟨0x20000a01⟩

/-- A number that is one bit too wide does not reach the next field, a field can stand in a list twice, and the
bit beside all fields is not an entry. -/
theorem fields_are_independent_stray :
    Field.ewt ≠ Field.ewa ∧ (strayRead.set .ewa 0x1f).get .ewt = 0 ∧ (strayRead.set .ewa 0x1f).get .ewa = 0xf ∧
    (∀ f, f ∈ [Field.mrd, .masa, .mrd] ↔ f ∈ [Field.masa, .mrd]) ∧
    strayRead.pick [.mrd, .masa, .mrd] = strayRead.pick [.masa, .mrd] ∧
    (strayRead.entries.foldl (fun u e => u.set e.1 e.2) (0 : Word)).bits = 0x20000a00 := by
  have h := fields_are_independent strayRead
  have hne : Field.ewt ≠ Field.ewa := by decide
  have hsame : ∀ f, f ∈ [Field.mrd, .masa, .mrd] ↔ f ∈ [Field.masa, .mrd] := by
    intro f
    cases f <;> decide
  exact ⟨hne, h.untouched _ _ _ hne, h.written _ _, hsame, (h.same_parts _ _ hsame).1, h.rebuilt⟩

end Word

end Microcode
