import Microcode.Text.Blank

/-!
# Bytes, lines and trimming

What holds of each byte of a text is decided on the bytes that it has (`decidableForallMem`). A text is cut byte
by byte (`cut_cons`). A line of a text has no newline, and a text has one line more than newlines
(`length_lines`). Trimming keeps a contiguous part of a text (`trim_isInfix`), and what it keeps
does not start with a blank (`not_isPrefix_trim`).
-/

namespace Microcode

namespace Text

-- stated for bytes, so that it comes before the search over all 256 of them
instance decidableForallMem (p : UInt8 → Prop) [DecidablePred p] (s : Text) : Decidable (∀ b ∈ s, p b) :=
  List.decidableBAll p s

theorem ne_of_isDigit {b c : UInt8} (hb : isDigit b = true) (hc : isDigit c = false) : b ≠ c := by
  rintro rfl
  rw [hb] at hc
  cases hc

/-! ## Cutting -/

/-- What was passed comes before the first part. -/
theorem cutAfter_eq_map (mark seen s : Text) :
    cutAfter mark seen s = (cut mark s).map fun parts => (seen.reverse ++ parts.1, parts.2) := by
  induction s generalizing seen with
  | nil =>
    unfold cut cutAfter
    split <;> simp
  | cons b s ih =>
    unfold cut cutAfter
    split
    · simp
    · rw [ih (b :: seen), ih [b], Option.map_map]
      congr 1
      funext parts
      simp

/-- A text is cut in front of its first byte or behind it. -/
theorem cut_cons (mark : Text) (b : UInt8) (s : Text) :
    cut mark (b :: s) =
      if mark.isPrefixOf (b :: s) then some ([], (b :: s).drop mark.length)
      else (cut mark s).map fun parts => (b :: parts.1, parts.2) := by
  rw [cut, cutAfter, cutAfter_eq_map]
  rfl

/-! ## Lines -/

/-- No part of a split has a byte that the text is split at. -/
theorem eq_false_of_mem_splitOnP {p : UInt8 → Bool} {s part : Text} (h : part ∈ s.splitOnP p) :
    ∀ b ∈ part, p b = false := by
  induction s generalizing part with
  | nil =>
    rw [List.splitOnP_nil, List.mem_singleton] at h
    rw [h]
    exact List.forall_mem_nil _
  | cons b s ih =>
    rw [List.splitOnP_cons_eq_if_modifyHead] at h
    split at h
    · rcases List.mem_cons.1 h with rfl | h
      · exact List.forall_mem_nil _
      · exact ih h
    · next hb =>
      -- the byte joins the first part
      obtain ⟨first, rest, hsplit⟩ := List.exists_cons_of_ne_nil (List.splitOnP_ne_nil p s)
      rw [hsplit, List.modifyHead_cons] at h
      rcases List.mem_cons.1 h with rfl | h
      · have hmem : first ∈ s.splitOnP p := by
          rw [hsplit]
          exact List.mem_cons_self
        have hfirst : ∀ c ∈ first, p c = false := ih hmem
        exact List.forall_mem_cons.2 ⟨Bool.eq_false_iff.2 hb, hfirst⟩
      · exact ih (by rw [hsplit]; exact List.mem_cons_of_mem first h)

/-- A line has no newline in it. -/
theorem newline_not_mem_of_mem_lines {s line : Text} (h : line ∈ s.lines) : newline ∉ line := by
  rw [lines, List.splitOn_eq_splitOnP] at h
  intro hmem
  have hfalse := eq_false_of_mem_splitOnP h newline hmem
  exact absurd hfalse (by decide)

/-- A text with `n` newlines has `n + 1` lines. -/
theorem length_lines (s : Text) : s.lines.length = s.count newline + 1 := by
  induction s with
  | nil => rfl
  | cons b s ih =>
    rw [lines] at ih
    rw [lines, List.splitOn_cons_eq_if_modifyHead, List.count_cons]
    split
    · rw [List.length_cons, ih]
    · rw [List.length_modifyHead, ih, Nat.add_zero]

/-- A newline ends a line. -/
theorem lines_append_newline (s t : Text) : (s ++ newline :: t).lines = s.lines ++ t.lines :=
  List.splitOn_append_cons_self s t

/-- A text is read back line by line. -/
theorem lines_unlines {ls : List Text} (hne : ls ≠ []) (h : ∀ l ∈ ls, newline ∉ l) :
    (unlines ls).lines = ls :=
  List.splitOn_intercalate newline h hne

/-! ## Trimming -/

theorem dropPieces_suffix (pieces : List Text) (skip : Nat) (s : Text) :
    dropPieces pieces skip s <:+ s := by
  fun_induction dropPieces pieces skip s with
  | case1 => exact List.suffix_rfl
  | case2 skip b s ih => exact ih.trans (List.suffix_cons b s)
  | case3 b s piece _ ih => exact ih.trans (List.suffix_cons b s)
  | case4 b s _ => exact List.suffix_rfl

/-- What is left starts with none of the pieces. -/
theorem not_isPrefix_dropPieces {pieces : List Text} {skip : Nat} {s : Text}
    (hne : dropPieces pieces skip s ≠ []) :
    ∀ piece ∈ pieces, ¬ piece <+: dropPieces pieces skip s := by
  fun_induction dropPieces pieces skip s with
  | case1 => exact absurd rfl hne
  | case2 skip b s ih => exact ih hne
  | case3 b s piece _ ih => exact ih hne
  | case4 b s hfind =>
    intro piece hpiece hpre
    exact List.find?_eq_none.1 hfind piece hpiece (List.isPrefixOf_iff_prefix.2 hpre)

theorem trimLeft_suffix (s : Text) : s.trimLeft <:+ s :=
  dropPieces_suffix _ _ s

theorem trimRight_isPrefix (s : Text) : s.trimRight <+: s := by
  have hsuffix := dropPieces_suffix (blanks.map List.reverse) 0 s.reverse
  rw [← List.reverse_prefix, List.reverse_reverse] at hsuffix
  exact hsuffix

/-- A trimmed text is a stretch of the text. -/
theorem trim_isInfix (s : Text) : s.trim <:+: s :=
  (trimRight_isPrefix s.trimLeft).isInfix.trans (trimLeft_suffix s).isInfix

theorem mem_of_mem_trim {s : Text} {b : UInt8} (h : b ∈ s.trim) : b ∈ s :=
  (trim_isInfix s).subset h

/-- A trimmed text does not start with a blank. -/
theorem not_isPrefix_trim {s blank : Text} (hs : s.trim ≠ []) (hblank : blank ∈ blanks) :
    ¬ blank <+: s.trim := by
  have hpre : s.trim <+: s.trimLeft := trimRight_isPrefix s.trimLeft
  have hleft : s.trimLeft ≠ [] := by
    intro hnil
    rw [hnil] at hpre
    exact hs (List.prefix_nil.1 hpre)
  intro h
  exact not_isPrefix_dropPieces (s := s) hleft blank hblank (h.trans hpre)

/-- A trimmed text does not start with a gap. -/
theorem isGap_of_head?_trim {s : Text} {b : UInt8} (h : s.trim.head? = some b) : isGap b = false := by
  obtain ⟨t, ht⟩ : ∃ t, s.trim = b :: t := List.head?_eq_some_iff.1 h
  refine Bool.eq_false_iff.2 fun hgap => ?_
  have hblank : [b] ∈ blanks := by
    have hcases : b = ' '.toUInt8 ∨ b = '\t'.toUInt8 := by
      simpa [isGap] using hgap
    rcases hcases with rfl | rfl <;> decide
  refine not_isPrefix_trim (s := s) ?_ hblank ?_
  · rw [ht]
    exact List.cons_ne_nil b t
  · rw [ht]
    exact List.prefix_append [b] t

end Text

end Microcode
