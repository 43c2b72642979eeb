import Mathlib.Data.List.Infix
import Microcode.Proofs.Text.Basic

/-!
# What trimming removes

Trimming looks for one encoding of a blank after another. The encodings form a prefix code, so the longest run of
blanks at an end of a text is the only one behind which no blank follows (`trimLeft_append`, `trimRight_append`), and
a text is trimmed exactly if no blank stands at either end of it (`trim_eq_self_iff`). They do not overlap either, so
a blank that is added at the end of a text is never read together with the bytes before it
(`trim_append_blank`).
-/

namespace Microcode

namespace Text

/-! ## Runs of pieces -/

/-- No piece is the start of another one, and none is empty. -/
structure PrefixFree (pieces : List Text) : Prop where
  nil_not_mem : [] ∉ pieces
  eq_of_prefix : ∀ p ∈ pieces, ∀ q ∈ pieces, p <+: q → p = q

/-- A text that is put together from pieces. -/
def MadeOf (pieces : List Text) (s : Text) : Prop :=
  ∃ parts : List Text, (∀ part ∈ parts, part ∈ pieces) ∧ s = parts.flatten

theorem madeOf_nil (pieces : List Text) : MadeOf pieces [] :=
  ⟨[], List.forall_mem_nil _, rfl⟩

theorem MadeOf.append_left {pieces : List Text} {piece s : Text} (hpiece : piece ∈ pieces)
    (hs : MadeOf pieces s) : MadeOf pieces (piece ++ s) := by
  obtain ⟨parts, hparts, rfl⟩ := hs
  exact ⟨piece :: parts, List.forall_mem_cons.2 ⟨hpiece, hparts⟩, List.flatten_cons.symm⟩

theorem MadeOf.reverse {pieces : List Text} {s : Text} (hs : MadeOf pieces s) :
    MadeOf (pieces.map List.reverse) s.reverse := by
  obtain ⟨parts, hparts, rfl⟩ := hs
  refine ⟨(parts.map List.reverse).reverse, fun part hpart => ?_, List.reverse_flatten⟩
  obtain ⟨p, hp, rfl⟩ := List.mem_map.1 (List.mem_reverse.1 hpart)
  exact List.mem_map_of_mem (hparts p hp)

theorem dropPieces_eq_drop (pieces : List Text) (skip : Nat) (s : Text) :
    dropPieces pieces skip s = dropPieces pieces 0 (s.drop skip) := by
  induction skip generalizing s with
  | zero => rfl
  | succ skip ih =>
    cases s with
    | nil => rfl
    | cons b s => exact ih s

/-- Where no piece stands nothing is dropped. -/
theorem dropPieces_eq_self {pieces : List Text} {s : Text} (h : ∀ piece ∈ pieces, ¬ piece <+: s) :
    dropPieces pieces 0 s = s := by
  cases s with
  | nil => rfl
  | cons b s =>
    have hfind : pieces.find? (·.isPrefixOf (b :: s)) = none :=
      List.find?_eq_none.2 fun piece hpiece hpre => h piece hpiece (List.isPrefixOf_iff_prefix.1 hpre)
    rw [dropPieces, hfind]

section

variable {pieces : List Text}

/-- A piece at the start is the one that is found there. -/
theorem find?_append_of_mem (hfree : PrefixFree pieces) {piece : Text} (hpiece : piece ∈ pieces) (s : Text) :
    pieces.find? (·.isPrefixOf (piece ++ s)) = some piece := by
  cases hfind : pieces.find? (·.isPrefixOf (piece ++ s)) with
  | none =>
    have hnot := List.find?_eq_none.1 hfind piece hpiece
    exact absurd (List.isPrefixOf_iff_prefix.2 (List.prefix_append piece s)) hnot
  | some found =>
    have hmem : found ∈ pieces := List.mem_of_find?_eq_some hfind
    have hfound : found <+: piece ++ s := by simpa using List.find?_some hfind
    -- two starts of one text are comparable
    rcases List.prefix_or_prefix_of_prefix hfound (List.prefix_append piece s) with h | h
    · rw [hfree.eq_of_prefix found hmem piece hpiece h]
    · rw [hfree.eq_of_prefix piece hpiece found hmem h]

/-- A piece in front is dropped as a whole. -/
theorem dropPieces_append_of_mem (hfree : PrefixFree pieces) {piece : Text} (hpiece : piece ∈ pieces) (s : Text) :
    dropPieces pieces 0 (piece ++ s) = dropPieces pieces 0 s := by
  have hfind := find?_append_of_mem hfree hpiece s
  cases piece with
  | nil => exact absurd hpiece hfree.nil_not_mem
  | cons b rest =>
    rw [List.cons_append] at hfind ⊢
    rw [dropPieces, hfind]
    show dropPieces pieces rest.length (rest ++ s) = _
    rw [dropPieces_eq_drop, List.drop_left]

/-- A run of pieces is dropped as a whole. -/
theorem dropPieces_append (hfree : PrefixFree pieces) {run : Text} (hrun : MadeOf pieces run) (s : Text) :
    dropPieces pieces 0 (run ++ s) = dropPieces pieces 0 s := by
  obtain ⟨parts, hparts, rfl⟩ := hrun
  induction parts with
  | nil => rfl
  | cons part parts ih =>
    obtain ⟨hpart, hparts⟩ := List.forall_mem_cons.1 hparts
    rw [List.flatten_cons, List.append_assoc, dropPieces_append_of_mem hfree hpart, ih hparts]

/-- What is dropped is a run of pieces. -/
theorem exists_madeOf_drop (hfree : PrefixFree pieces) (skip : Nat) (s : Text) :
    ∃ run, MadeOf pieces run ∧ s.drop skip = run ++ dropPieces pieces skip s := by
  fun_induction dropPieces pieces skip s with
  | case1 skip => exact ⟨[], madeOf_nil pieces, List.drop_nil⟩
  | case2 skip b s ih => exact ih
  | case3 b s piece hfind ih =>
    obtain ⟨run, hrun, hs⟩ := ih
    have hmem : piece ∈ pieces := List.mem_of_find?_eq_some hfind
    have hpre : piece <+: b :: s := by simpa using List.find?_some hfind
    refine ⟨piece ++ run, hrun.append_left hmem, ?_⟩
    -- the first byte was looked at, and the others of the piece are skipped
    have hdrop : (b :: s).drop piece.length = s.drop (piece.length - 1) := by
      cases piece with
      | nil => exact absurd hmem hfree.nil_not_mem
      | cons c piece => rfl
    rw [List.append_assoc, ← hs, ← hdrop, List.drop_zero]
    exact (List.prefix_iff_eq_append.1 hpre).symm
  | case4 b s _ => exact ⟨[], madeOf_nil pieces, rfl⟩

end

/-! ## Blanks -/

/-- No blank is the beginning of another one. -/
theorem prefixFree_blanks : PrefixFree blanks :=
  ⟨by decide +kernel, by decide +kernel⟩

theorem prefixFree_reverse_blanks : PrefixFree (blanks.map List.reverse) :=
  ⟨by decide +kernel, by decide +kernel⟩

/-- Blanks in front make no difference. -/
theorem trimLeft_append {run : Text} (hrun : MadeOf blanks run) (s : Text) :
    (run ++ s).trimLeft = s.trimLeft :=
  dropPieces_append prefixFree_blanks hrun s

theorem trimRight_append (s : Text) {run : Text} (hrun : MadeOf blanks run) :
    (s ++ run).trimRight = s.trimRight := by
  unfold trimRight
  rw [List.reverse_append, dropPieces_append prefixFree_reverse_blanks hrun.reverse]

theorem exists_eq_append_trimLeft (s : Text) : ∃ run, MadeOf blanks run ∧ s = run ++ s.trimLeft :=
  exists_madeOf_drop prefixFree_blanks 0 s

theorem trimLeft_eq_self {s : Text} (h : ∀ blank ∈ blanks, ¬ blank <+: s) : s.trimLeft = s :=
  dropPieces_eq_self h

theorem trimRight_eq_self {s : Text} (h : ∀ blank ∈ blanks, ¬ blank <:+ s) : s.trimRight = s := by
  unfold trimRight
  rw [dropPieces_eq_self, List.reverse_reverse]
  intro piece hpiece
  obtain ⟨blank, hblank, rfl⟩ := List.mem_map.1 hpiece
  rw [List.reverse_prefix]
  exact h blank hblank

theorem not_isPrefix_nil {blank : Text} (hblank : blank ∈ blanks) : ¬ blank <+: [] := by
  intro h
  rw [List.prefix_nil.1 h] at hblank
  exact prefixFree_blanks.nil_not_mem hblank

/-- A trimmed text does not start with a blank. -/
theorem not_isPrefix_trimLeft (s : Text) {blank : Text} (hblank : blank ∈ blanks) : ¬ blank <+: s.trimLeft := by
  by_cases hs : s.trimLeft = []
  · rw [hs]
    exact not_isPrefix_nil hblank
  · exact not_isPrefix_dropPieces hs blank hblank

/-- A text does not end with a blank behind which it was trimmed. -/
theorem not_isSuffix_trimRight (s : Text) {blank : Text} (hblank : blank ∈ blanks) : ¬ blank <:+ s.trimRight := by
  rw [← List.reverse_prefix, trimRight, List.reverse_reverse]
  by_cases hs : dropPieces (blanks.map List.reverse) 0 s.reverse = []
  · rw [hs, ← List.reverse_nil, List.reverse_prefix]
    exact fun h => not_isPrefix_nil hblank (List.suffix_nil.1 h ▸ List.nil_prefix)
  · exact not_isPrefix_dropPieces hs _ (List.mem_map_of_mem hblank)

/-- No blank stands at either end of what trimming leaves. -/
theorem no_blank_around_trim (s : Text) {blank : Text} (hblank : blank ∈ blanks) :
    ¬ blank <+: s.trim ∧ ¬ blank <:+ s.trim := by
  refine ⟨fun h => ?_, not_isSuffix_trimRight s.trimLeft hblank⟩
  exact not_isPrefix_trimLeft s hblank (h.trans (trimRight_isPrefix s.trimLeft))

/-- A text is trimmed exactly if no blank stands at either end of it. -/
theorem trim_eq_self_iff {s : Text} : s.trim = s ↔ ∀ blank ∈ blanks, ¬ blank <+: s ∧ ¬ blank <:+ s := by
  constructor
  · intro h blank hblank
    rw [← h]
    exact no_blank_around_trim s hblank
  · intro h
    rw [trim, trimLeft_eq_self fun blank hblank => (h blank hblank).1,
      trimRight_eq_self fun blank hblank => (h blank hblank).2]

/-- What trimming leaves is trimmed. -/
theorem trim_trim (s : Text) : s.trim.trim = s.trim :=
  trim_eq_self_iff.2 fun _ hblank => no_blank_around_trim s hblank

/-- At the end of a trimmed text there is nothing to remove. -/
theorem trim_eq_trimLeft_of_suffix {s t : Text} (ht : t.trim = t) (h : s <:+ t) : s.trim = s.trimLeft := by
  refine trimRight_eq_self fun blank hblank hsuf => ?_
  exact (trim_eq_self_iff.1 ht blank hblank).2 (hsuf.trans ((trimLeft_suffix s).trans h))

/-- No blank starts with a later part of another one. -/
theorem eq_of_suffix_of_prefix {p q u : Text} (hp : p ∈ blanks) (hq : q ∈ blanks) (hsuf : u <:+ p) (hpre : u <+: q)
    (hne : u ≠ []) : u = p := by
  have hall : ∀ p ∈ blanks, ∀ u ∈ p.tails, ∀ q ∈ blanks, u <+: q → u ≠ [] → u = p := by decide +kernel
  exact hall p hp u ((List.mem_tails u p).2 hsuf) q hq hpre hne

/-- A blank at the end of a text is removed, whatever bytes stand before it. -/
theorem trim_append_blank (s : Text) {blank : Text} (hblank : blank ∈ blanks) : (s ++ blank).trim = s.trim := by
  have hrun : MadeOf blanks blank := by
    rw [← List.append_nil blank]
    exact (madeOf_nil blanks).append_left hblank
  obtain ⟨run, hleft, hs⟩ := exists_eq_append_trimLeft s
  -- trimming on the left comes first, so the blank can only be lost there if all else is
  have hstart : (s ++ blank).trimLeft = (s.trimLeft ++ blank).trimLeft := by
    have h := trimLeft_append hleft (s.trimLeft ++ blank)
    rwa [← List.append_assoc, ← hs] at h
  rw [trim, trim, hstart]
  by_cases hnil : s.trimLeft = []
  · -- there are only blanks
    have hblank : blank.trimLeft = [] := by
      have h := trimLeft_append hrun []
      rwa [List.append_nil] at h
    rw [hnil, List.nil_append, hblank]
  · have hkept : (s.trimLeft ++ blank).trimLeft = s.trimLeft ++ blank := by
      refine trimLeft_eq_self fun piece hpiece hpre => ?_
      rcases List.prefix_or_prefix_of_prefix hpre (List.prefix_append s.trimLeft blank) with h | ⟨rest, rfl⟩
      · exact not_isPrefix_trimLeft s hpiece h
      · -- a piece that goes on into the blank would overlap with it
        have hrest : rest <+: blank := (List.prefix_append_right_inj s.trimLeft).1 hpre
        by_cases hempty : rest = []
        · rw [hempty, List.append_nil] at hpiece
          exact not_isPrefix_trimLeft s hpiece List.prefix_rfl
        · have heq := eq_of_suffix_of_prefix hpiece hblank (List.suffix_append s.trimLeft rest) hrest hempty
          exact hnil (List.self_eq_append_left.1 heq)
    rw [hkept, trimRight_append _ hrun]

end Text

end Microcode
