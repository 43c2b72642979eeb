import Mathlib.Data.List.TakeWhile
import Microcode.Proofs.Source.Lines
import Microcode.Proofs.Text.Trimming

/-!
# Definitions

A well-formed definition is described by its parts (`Defines`). It is read back in one way only, although gaps are told
from other blanks there: behind the word and behind the name only a space or a tab counts, and around the value all
blanks do (`defines_iff`). On a line of a source the value goes neither over the end of the line nor into a comment
(`Preprocess.isValue_of_defines`).
-/

namespace Microcode

open Text

/-! ## Definitions -/

/-- The name of a macro: bytes of words, the first of which is no digit. -/
structure IsName (name : Text) : Prop where
  ne_nil : name ≠ []
  isWord : ∀ b ∈ name, Text.isWord b = true
  not_digit : ∀ b, name.head? = some b → isDigit b = false

/-- A line that is to define something: it starts with the word, and a gap or nothing follows. -/
def IsDefinition (l : Text) : Prop :=
  ∃ r, l = defineWord ++ r ∧ ∀ b, r.head? = some b → isGap b = true

/-- A line that defines a name well: the word, gaps, the name, a gap, any blanks, and the value, which is not empty and
has no blanks around it. -/
def Defines (l name value : Text) : Prop :=
  ∃ gaps gap run, l = defineWord ++ (gaps ++ (name ++ gap :: (run ++ value))) ∧
    gaps ≠ [] ∧ (∀ b ∈ gaps, isGap b = true) ∧ IsName name ∧ isGap gap = true ∧ MadeOf blanks run ∧
    value ≠ [] ∧ value.trim = value

theorem isGap_cases {b : UInt8} (h : isGap b = true) : b = ' '.toUInt8 ∨ b = '\t'.toUInt8 := by
  simpa [isGap] using h

theorem isWord_of_isGap {b : UInt8} (h : isGap b = true) : isWord b = false := by
  rcases isGap_cases h with rfl | rfl <;> decide

theorem mem_blanks_of_isGap {b : UInt8} (h : isGap b = true) : [b] ∈ blanks := by
  rcases isGap_cases h with rfl | rfl <;> decide

/-- A gap in front is trimmed. -/
theorem trim_cons_of_isGap {b : UInt8} (h : isGap b = true) (s : Text) : Text.trim (b :: s) = s.trim := by
  have hblank : MadeOf blanks [b] := (madeOf_nil blanks).append_left (mem_blanks_of_isGap h)
  exact congrArg trimRight (trimLeft_append hblank s)

theorem isDefine_append (r : Text) :
    isDefine (defineWord ++ r) = true ↔ ∀ b, r.head? = some b → isGap b = true := by
  have hstart : defineWord.isPrefixOf (defineWord ++ r) = true :=
    List.isPrefixOf_iff_prefix.2 (List.prefix_append defineWord r)
  unfold isDefine
  rw [hstart, List.drop_left, Bool.true_and]
  cases r with
  | nil => simp
  | cons b r => simp

/-- A line is taken for a definition exactly if it is one. -/
theorem isDefine_iff {l : Text} : isDefine l = true ↔ IsDefinition l := by
  constructor
  · intro h
    obtain ⟨r, rfl⟩ : defineWord <+: l := List.isPrefixOf_iff_prefix.1 (Bool.and_eq_true_iff.1 h).1
    exact ⟨r, rfl, (isDefine_append r).1 h⟩
  · rintro ⟨r, rfl, hr⟩
    exact (isDefine_append r).2 hr

/-- The parts of a well-formed definition are read back. -/
theorem Defines.parseDefine_eq {l name value : Text} (h : Defines l name value) :
    parseDefine l = some (name, value) := by
  obtain ⟨gaps, gap, run, rfl, -, hgaps, hname, hgap, hrun, hne, htrim⟩ := h
  obtain ⟨b, rest, rfl⟩ := List.exists_cons_of_ne_nil hname.ne_nil
  have hb : isGap b = false := by
    have hword := hname.isWord b List.mem_cons_self
    exact Bool.eq_false_iff.2 fun h => by rw [isWord_of_isGap h] at hword; cases hword
  have hdigit : isDigit b = false := hname.not_digit b rfl
  have hbehind : isWord gap = false := isWord_of_isGap hgap
  -- the line is taken apart from the left, and each part ends where it should
  have hskip : (gaps ++ (b :: rest ++ gap :: (run ++ value))).dropWhile isGap =
      b :: rest ++ gap :: (run ++ value) := by
    rw [List.dropWhile_append_of_pos hgaps, List.cons_append, List.dropWhile_cons_of_neg (by simp [hb])]
  have htake : (b :: rest ++ gap :: (run ++ value)).takeWhile isWord = b :: rest := by
    rw [List.takeWhile_append_of_pos hname.isWord, List.takeWhile_cons_of_neg (by simp [hbehind]), List.append_nil]
  have hdrop : (b :: rest ++ gap :: (run ++ value)).dropWhile isWord = gap :: (run ++ value) := by
    rw [List.dropWhile_append_of_pos hname.isWord, List.dropWhile_cons_of_neg (by simp [hbehind])]
  have hvalue : Text.trim (gap :: (run ++ value)) = value := by
    rw [trim_cons_of_isGap hgap, Text.trim, trimLeft_append hrun]
    exact htrim
  unfold parseDefine
  dsimp only
  rw [List.drop_left, hskip, htake, hdrop]
  dsimp only
  rw [hvalue, hdigit, hgap, List.isEmpty_eq_false_iff.2 hne]
  rfl

/-- What is read from a trimmed line are the parts of a well-formed definition. -/
theorem defines_of_parseDefine {l name value : Text} (htrim : l.trim = l) (hl : IsDefinition l)
    (h : parseDefine l = some (name, value)) : Defines l name value := by
  obtain ⟨r, rfl, hr⟩ := hl
  unfold parseDefine at h
  dsimp only at h
  rw [List.drop_left] at h
  split at h
  · next b rest gap more hname hbehind =>
    split at h
    · cases h
    · next hgood =>
      obtain ⟨rfl, rfl⟩ := Prod.mk.inj (Option.some.inj h)
      simp only [Bool.or_eq_true, not_or, Bool.not_eq_true, Bool.not_eq_true', Bool.not_eq_false] at hgood
      obtain ⟨⟨hdigit, hgap⟩, hempty⟩ := hgood
      have hparts : r = r.takeWhile isGap ++ (b :: rest ++ gap :: more) := by
        rw [← hname, ← hbehind, List.takeWhile_append_dropWhile, List.takeWhile_append_dropWhile]
      have hword : ∀ c ∈ b :: rest, isWord c = true := by
        rw [← hname]
        exact fun c hc => List.mem_takeWhile_imp hc
      have hvalue : Text.trim (gap :: more) = trimLeft more := by
        have hsuffix : more <:+ defineWord ++ r := by
          rw [hparts]
          exact ⟨defineWord ++ (r.takeWhile isGap ++ (b :: rest ++ [gap])), by simp⟩
        rw [trim_cons_of_isGap hgap, trim_eq_trimLeft_of_suffix htrim hsuffix]
      -- the first byte of the name is no gap, so there is one before it
      have hgaps : r.takeWhile isGap ≠ [] := by
        intro hnil
        rw [hnil, List.nil_append] at hparts
        have hb := hr b (by rw [hparts]; rfl)
        have hfirst := hword b List.mem_cons_self
        rw [isWord_of_isGap hb] at hfirst
        cases hfirst
      obtain ⟨run, hrun, hmore⟩ := exists_eq_append_trimLeft more
      refine ⟨r.takeWhile isGap, gap, run, ?_, hgaps, fun c hc => List.mem_takeWhile_imp hc, ?_, hgap, hrun,
        List.isEmpty_eq_false_iff.1 hempty, trim_trim _⟩
      · rw [hname, hbehind, hvalue, ← hmore, ← hparts]
      · rw [hname]
        exact ⟨List.cons_ne_nil b rest, hword, fun c hc => Option.some.inj hc ▸ hdigit⟩
  · cases h

theorem Defines.isDefinition {l name value : Text} (h : Defines l name value) : IsDefinition l := by
  obtain ⟨gaps, gap, run, rfl, hne, hgaps, -⟩ := h
  obtain ⟨b, rest, rfl⟩ := List.exists_cons_of_ne_nil hne
  exact ⟨_, rfl, fun c hc => Option.some.inj hc ▸ hgaps b List.mem_cons_self⟩

/-- **Well-formed definitions are recognised exactly.** -/
theorem defines_iff {l name value : Text} (htrim : l.trim = l) :
    Defines l name value ↔ IsDefinition l ∧ parseDefine l = some (name, value) :=
  ⟨fun h => ⟨h.isDefinition, h.parseDefine_eq⟩, fun h => defines_of_parseDefine htrim h.1 h.2⟩

/-- A line defines one name as one value. -/
theorem Defines.unique {l name name' value value' : Text} (h : Defines l name value) (h' : Defines l name' value') :
    name = name' ∧ value = value' :=
  Prod.mk.inj (Option.some.inj (h.parseDefine_eq.symm.trans h'.parseDefine_eq))

/-! ## Values -/

/-- The value of a macro: it is not empty, has no blanks around it, and no newline and no line comment in it. -/
structure IsValue (value : Text) : Prop where
  ne_nil : value ≠ []
  trimmed : value.trim = value
  newline_not_mem : newline ∉ value
  no_comment : ¬ ascii "//" <:+: value

namespace Preprocess

theorem before_cons (mark : Text) (b : UInt8) (s : Text) :
    before mark (b :: s) = if mark.isPrefixOf (b :: s) then [] else b :: before mark s := by
  unfold before
  rw [cut_cons]
  by_cases hpre : mark.isPrefixOf (b :: s) = true
  · rw [if_pos hpre, if_pos hpre]
  · rw [if_neg hpre, if_neg hpre]
    cases cut mark s <;> rfl

/-- What stands before the first mark does not have the mark in it. -/
theorem not_isInfix_before {mark : Text} (hmark : mark ≠ []) (s : Text) : ¬ mark <:+: before mark s := by
  induction s with
  | nil =>
    intro h
    exact hmark (List.infix_nil.1 (h.trans (before_isPrefix mark []).isInfix))
  | cons b s ih =>
    rw [before_cons]
    split
    · exact fun h => hmark (List.infix_nil.1 h)
    · next hno =>
      intro h
      rcases List.infix_cons_iff.1 h with hpre | hinfix
      · have hshort : b :: before mark s <+: b :: s := List.cons_prefix_cons.2 ⟨rfl, before_isPrefix mark s⟩
        exact hno (List.isPrefixOf_iff_prefix.2 (hpre.trans hshort))
      · exact ih hinfix

/-- The value of a definition on a line. -/
theorem isValue_of_defines {s name value : Text} (hs : newline ∉ s) (h : Defines (content s) name value) :
    IsValue value := by
  obtain ⟨gaps, gap, run, hparts, -, -, -, -, -, hne, htrim⟩ := h
  have hsuffix : value <:+ content s := by
    rw [hparts]
    exact ⟨defineWord ++ (gaps ++ (name ++ gap :: run)), by simp⟩
  refine ⟨hne, htrim, fun hmem => hs (mem_of_mem_content (hsuffix.subset hmem)), fun hinfix => ?_⟩
  have hcontent : ascii "//" <:+: content s := hinfix.trans hsuffix.isInfix
  exact not_isInfix_before (by decide) s (hcontent.trans (trim_isInfix _))

end Preprocess

end Microcode
