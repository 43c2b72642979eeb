import Microcode.Proofs.Grammar.Calls

/-!
# Reading a whole text by index

A cursor has the bytes from its position on and none of those before it. The readings of this module have the whole
text and an index into it: a byte is looked at under its index (`Text.hasAt`), a run of bytes is gone through index
by index (`Text.runEnd`), and a stretch is cut out of the text (`Text.slice`).

Tokens and separators are all that looks at bytes, and each of them reads at a cursor what its reading reads at the
index of it (`Parser.ReadsAt`, `ByteSet.skip_ofText`). A parser calls others at cursors of the same text only. So
whatever it looks at on the way, it looks at in the whole text under an absolute index
(`Grammar.wholeText_of_calls`).
-/

namespace Microcode

/-! ## Bytes under their indices -/

namespace Text

/-- Whether there is a byte at an index and has a property. -/
def hasAt (p : UInt8 → Bool) (text : Text) (i : Nat) : Bool :=
  text[i]?.any p

/-- The bytes from an index up to before another one. -/
def slice (text : Text) (i j : Nat) : Text :=
  (text.take j).drop i

/-- Where there is a byte, the index is in the text. -/
theorem lt_length_of_hasAt {p : UInt8 → Bool} {text : Text} {i : Nat} (h : hasAt p text i = true) :
    i < text.length := by
  obtain ⟨b, hb, -⟩ := (Option.any_eq_true _ _).1 h
  exact (List.getElem?_eq_some_iff.1 hb).1

/-- Where the run of bytes with a property ends that starts at an index. -/
def runEnd (p : UInt8 → Bool) (text : Text) (i : Nat) : Nat :=
  if hasAt p text i then runEnd p text (i + 1) else i
termination_by text.length - i
decreasing_by
  have hlt := lt_length_of_hasAt ‹_›
  omega

variable (p : UInt8 → Bool) (text : Text) (i n : Nat)

/-- The byte at an index is the first one of those that are left there. -/
theorem hasAt_eq_head? : hasAt p text i = (text.drop i).head?.any p := by
  rw [hasAt, List.head?_drop]

/-- A stretch is made of the first bytes of those that are left at its start. -/
theorem slice_eq_take_drop : slice text i (i + n) = (text.drop i).take n := by
  rw [slice, List.drop_take, Nat.add_sub_cancel_left]

/-- A run goes over the bytes with the property that come next. -/
theorem runEnd_eq : runEnd p text i = i + ((text.drop i).takeWhile p).length := by
  fun_induction runEnd p text i with
  | case1 i hbyte ih =>
    have hlt := lt_length_of_hasAt hbyte
    have hfirst : p text[i] = true := by
      rwa [hasAt, List.getElem?_eq_getElem hlt] at hbyte
    rw [ih, List.drop_eq_getElem_cons hlt, List.takeWhile_cons_of_pos hfirst, List.length_cons]
    omega
  | case2 i hbyte =>
    have hnone : (text.drop i).takeWhile p = [] := by
      rw [hasAt_eq_head?] at hbyte
      cases hrest : text.drop i with
      | nil => rfl
      | cons b rest =>
        rw [hrest] at hbyte
        exact List.takeWhile_cons_of_neg hbyte
    rw [hnone]
    rfl

end Text

/-! ## Cursors of a text -/

theorem Cursor.pos_ofText (text : Text) (i : Nat) : (ofText text i).pos = i := rfl

theorem Cursor.rest_ofText (text : Text) (i : Nat) : (ofText text i).rest = text.drop i := rfl

/-- Moving a cursor over bytes of a text leads to a cursor of the text. -/
theorem Cursor.advance_ofText (text : Text) (i n : Nat) : (ofText text i).advance n = ofText text (i + n) := by
  rw [ofText, advance, List.drop_drop]
  rfl

/-- The index behind all separators that stand at an index. -/
def ByteSet.skipAt (s : ByteSet) (text : Text) (i : Nat) : Nat :=
  Text.runEnd s.has text i

/-- Separators are skipped to the same index. -/
theorem ByteSet.skip_ofText (s : ByteSet) (text : Text) (i : Nat) :
    s.skip (.ofText text i) = .ofText text (s.skipAt text i) := by
  rw [skip_eq_advance, Cursor.advance_ofText, skipAt, Text.runEnd_eq]
  rfl

namespace Parser

variable {α β : Type}

/-! ## Readings -/

/-- Reading a whole text at an index: a value and the index behind it, or a stop. -/
abbrev Reading (α : Type) :=
  Text → Nat → Except Stop (α × Nat)

/-- Changes the value that is read. -/
def mapAt (f : α → β) (read : Reading α) : Reading β := fun text i =>
  (read text i).map fun (a, j) => (f a, j)

/-- A parser reads at every cursor of a text what the reading reads at the index of the cursor. -/
def ReadsAt (p : Parser α) (read : Reading α) : Prop :=
  ∀ text i, p.parseAt text i = (read text i).map fun (a, j) => (a, .ofText text j)

/-- Changing the value on both sides keeps the two in step. -/
theorem ReadsAt.map {p : Parser α} {read : Reading α} (h : ReadsAt p read) (f : α → β) :
    ReadsAt (p.map f) (mapAt f read) := by
  intro text i
  have hmap : (p.map f).parseAt text i = (p.parseAt text i).bind fun x => .ok (f x.1, x.2) := rfl
  rw [hmap, h text i, mapAt]
  cases read text i <;> rfl

/-- The given bytes at an index. -/
def constAt (t : Text) : Reading Text := fun text i =>
  if text.slice i (i + t.length) = t then .ok (t, i + t.length) else .error ⟨i, .missing t.quote⟩

/-- The given bytes at an index, if the byte behind them is not of a word. -/
def keywordAt (t : Text) : Reading (Located Text) := fun text i =>
  if text.slice i (i + t.length) ≠ t ∨ text.hasAt Text.isWord (i + t.length) = true then
    .error ⟨i, .missing t.quote⟩
  else .ok (⟨⟨i, i + t.length⟩, t⟩, i + t.length)

/-- All bytes from an index on. -/
def restAt : Reading (Located Text) := fun text i =>
  let value := (text.slice i text.length).trim
  if value.isEmpty then .error ⟨i, .noText⟩ else .ok (⟨⟨i, text.length⟩, value⟩, text.length)

/-- The index behind the sign at an index. -/
def signEnd (text : Text) (i : Nat) : Nat :=
  if text.hasAt (fun b => b == '+'.toUInt8 || b == '-'.toUInt8) i then i + 1 else i

/-- The index behind the base prefix at an index. -/
def baseEnd (text : Text) (i : Nat) : Nat :=
  if text.hasAt (· == '0'.toUInt8) i && text.hasAt (fun b => (Literal.baseOfLetter? b).isSome) (i + 1) then i + 2
  else i

/-- An integer at an index: a sign, a base prefix and all the bytes of words that follow. -/
def intAt : Reading (Located Int) := fun text i =>
  let first := signEnd text i
  let stop := text.runEnd Text.isWord (baseEnd text first)
  if stop = first then .error ⟨i, .noInteger⟩
  else
    match Literal.read (text.slice i stop) with
    | .ok v => .ok (⟨⟨i, stop⟩, v⟩, stop)
    | .error cause => .error ⟨i, .badInteger (text.slice i stop) cause⟩

/-! ## Tokens -/

/-- The bytes that are left start with a text if the stretch of its length is the text. -/
theorem isPrefixOf_drop_iff {t text : Text} {i : Nat} :
    t.isPrefixOf (text.drop i) = true ↔ text.slice i (i + t.length) = t := by
  rw [Text.slice_eq_take_drop, List.isPrefixOf_iff_prefix, List.prefix_iff_eq_take, eq_comm]

/-- The bytes that are left start with one of a word if there is one at the index. -/
theorem startsWord_drop (text : Text) (i : Nat) : startsWord (text.drop i) = text.hasAt Text.isWord i := by
  rw [Text.hasAt_eq_head?]
  cases text.drop i <;> rfl

theorem readsAt_const (t : Text) : ReadsAt (const t) (constAt t) := by
  intro text i
  unfold parseAt const constAt
  simp only [Cursor.pos_ofText, Cursor.rest_ofText, Cursor.advance_ofText]
  by_cases ht : text.slice i (i + t.length) = t
  · rw [if_pos ht, if_pos (isPrefixOf_drop_iff.2 ht)]
    rfl
  · rw [if_neg ht, if_neg fun h => ht (isPrefixOf_drop_iff.1 h)]
    rfl

/-- A keyword is read by index, with the byte behind it. -/
theorem readsAt_keyword (t : Text) : ReadsAt (keyword t) (keywordAt t) := by
  intro text i
  have htest : (t.isPrefixOf (text.drop i) && !startsWord ((text.drop i).drop t.length)) = true ↔
      ¬(text.slice i (i + t.length) ≠ t ∨ text.hasAt Text.isWord (i + t.length) = true) := by
    rw [List.drop_drop, startsWord_drop, Bool.and_eq_true, Bool.not_eq_true', not_or, not_not, Bool.not_eq_true]
    exact and_congr_left' isPrefixOf_drop_iff
  unfold parseAt keyword keywordAt
  simp only [Cursor.pos_ofText, Cursor.rest_ofText, Cursor.advance_ofText]
  split
  · next h =>
    rw [if_neg (htest.1 h)]
    rfl
  · next h =>
    rw [if_pos (not_not.1 fun hne => h (htest.2 hne))]
    rfl

/-- The rest is read to the end of the text. -/
theorem readsAt_rest : ReadsAt rest restAt := by
  intro text i
  have hslice : text.slice i text.length = text.drop i := by
    rw [Text.slice, List.take_length]
  unfold parseAt rest restAt
  simp only [Cursor.pos_ofText, Cursor.rest_ofText, Cursor.advance_ofText, hslice]
  split
  · rfl
  · next hsome =>
    -- there are bytes at the index, so it is in the text
    have hle : i ≤ text.length := by
      by_contra hgt
      rw [List.drop_eq_nil_of_le (by omega)] at hsome
      exact hsome rfl
    rw [List.length_drop, Nat.add_sub_cancel' hle]
    rfl

/-- A sign takes one index if it is there. -/
theorem signEnd_eq (text : Text) (i : Nat) : signEnd text i = i + signLength (text.drop i) := by
  unfold signEnd
  rw [Text.hasAt_eq_head?]
  cases text.drop i with
  | nil => rfl
  | cons b rest =>
    show (if (b == '+'.toUInt8 || b == '-'.toUInt8) = true then i + 1 else i) = i + ite _ 1 0
    split <;> rfl

/-- A base prefix is made of bytes of words, so the run over them comes to the same end from before it. -/
theorem runEnd_baseEnd (text : Text) (i : Nat) :
    text.runEnd Text.isWord (baseEnd text i) = text.runEnd Text.isWord i := by
  unfold baseEnd
  split
  · next hprefix =>
    rw [Bool.and_eq_true] at hprefix
    have hzero : text.hasAt Text.isWord i = true := by
      obtain ⟨b, hb, hdigit⟩ := (Option.any_eq_true _ _).1 hprefix.1
      rw [Text.hasAt, hb, beq_iff_eq.1 hdigit]
      rfl
    have hletter : text.hasAt Text.isWord (i + 1) = true := by
      obtain ⟨b, hb, hbase⟩ := (Option.any_eq_true _ _).1 hprefix.2
      obtain ⟨base, hknown⟩ := Option.isSome_iff_exists.1 hbase
      rw [Text.hasAt, hb]
      exact Literal.isWord_of_mem_basePrefixes _ (Literal.mem_basePrefixes_of_baseOfLetter? hknown) b (by simp)
    rw [Text.runEnd.eq_def _ _ i, if_pos hzero, Text.runEnd.eq_def _ _ (i + 1), if_pos hletter]
  · rfl

/-- An integer is read by index, whether its base prefix is gone over first or with the digits. -/
theorem readsAt_int : ReadsAt int intAt := by
  intro text i
  have hstop : text.runEnd Text.isWord (baseEnd text (signEnd text i)) =
      i + (signLength (text.drop i) + (digitsOf (text.drop i)).length) := by
    rw [runEnd_baseEnd, Text.runEnd_eq, signEnd_eq, digitsOf, List.drop_drop, Nat.add_assoc]
  unfold parseAt int intAt
  simp only [Cursor.pos_ofText, Cursor.rest_ofText, Cursor.advance_ofText, hstop, Text.slice_eq_take_drop]
  rw [signEnd_eq]
  -- the run is empty if it ends where it starts
  by_cases hnone : digitsOf (text.drop i) = []
  · have hend : i + (signLength (text.drop i) + (digitsOf (text.drop i)).length) = i + signLength (text.drop i) := by
      rw [hnone]
      rfl
    rw [if_pos (List.isEmpty_iff.2 hnone), if_pos hend]
    rfl
  · have hpos : 0 < (digitsOf (text.drop i)).length := List.length_pos_iff.2 hnone
    rw [if_neg fun h => hnone (List.isEmpty_iff.1 h), if_neg (by omega)]
    cases Literal.read _ <;> rfl

end Parser

/-! ## Grammars -/

namespace Grammar

open Microcode.Parser

/-- The reading of a token. -/
def tokenAt? : Grammar → Option (Reading Node)
  | rest => some (mapAt .text restAt)
  | int => some (mapAt .int intAt)
  | const t => some (mapAt .const (constAt t))
  | keyword t => some (mapAt .keyword (keywordAt t))
  | _ => Option.none

/-- Every token reads what its reading reads. -/
theorem readsAt_of_tokenAt? {g : Grammar} {read : Reading Node} (h : g.tokenAt? = some read) :
    ReadsAt g.parser read := by
  cases g <;> cases h
  case rest => exact readsAt_rest.map _
  case int => exact readsAt_int.map _
  case const t => exact (readsAt_const t).map _
  case keyword t => exact (readsAt_keyword t).map _

/-- At a cursor of a text, separators and a token are read by their index in it. -/
structure WholeText (text : Text) (g : Grammar) (c : Cursor) : Prop where
  cursor : c = .ofText text c.pos
  skips : ∀ set : ByteSet, set.skip c = .ofText text (set.skipAt text c.pos)
  reads : ∀ read, g.tokenAt? = some read →
    g.parser.scan c = (read text c.pos).map fun (node, j) => (node, .ofText text j)

/-- Every cursor of a text is read by index. -/
theorem wholeText_ofText (text : Text) (g : Grammar) (i : Nat) : WholeText text g (.ofText text i) where
  cursor := rfl
  skips set := set.skip_ofText text i
  reads _ h := readsAt_of_tokenAt? h text i

/-- Whatever a parser calls, directly or through other calls, reads the whole text by index. -/
theorem wholeText_of_calls {g h : Grammar} {text : Text} {i : Nat} {c : Cursor}
    (hcalls : Relation.ReflTransGen Calls (g, .ofText text i) (h, c)) : WholeText text h c := by
  obtain ⟨n, -, hc⟩ := advances_of_reflTransGen hcalls
  rw [show c = Cursor.ofText text (i + n) from hc.trans (Cursor.advance_ofText text i n)]
  exact wholeText_ofText text h (i + n)

end Grammar

end Microcode
