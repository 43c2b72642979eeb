import Mathlib.Data.List.Forall2
import Microcode.Compile
import Microcode.Proofs.Source.Causality
import Microcode.Proofs.Text.Trimming

/-!
# Line endings

A carriage return before a newline is a blank at the end of its line. It belongs to no delimiter of a comment, so the
scan of the line ends at the same place with it as without it (`Comment.scanFrom_of_ending`), and in a comment it is
removed. Elsewhere it is the last byte of the line, where it is cut off together with a line comment or trimmed
(`Preprocess.content_append_carriageReturn`). So a source may end any of its lines with one, and all that comes out is
the same (`preprocess_eq_of_endings`).
-/

namespace Microcode

namespace Text

/-- The byte that may stand before a newline at the end of a line. -/
def carriageReturn : UInt8 := '\r'.toUInt8

/-- A text with a carriage return before each newline. -/
def crlf (s : Text) : Text :=
  s.flatMap fun b => if b = newline then [carriageReturn, newline] else [b]

/-- A line, and the same line with a carriage return behind it or without one. -/
def Ending (l l' : Text) : Prop :=
  l' = l ∨ l' = l ++ [carriageReturn]

theorem crlf_of_newline_not_mem {l : Text} (h : newline ∉ l) : l.crlf = l := by
  unfold crlf
  induction l with
  | nil => rfl
  | cons b l ih =>
    obtain ⟨hb, hl⟩ := not_or.1 (mt List.mem_cons.2 h)
    rw [List.flatMap_cons, if_neg (Ne.symm hb), ih hl, List.singleton_append]

theorem crlf_append_line {l : Text} (h : newline ∉ l) (s : Text) :
    (l ++ newline :: s).crlf = (l ++ [carriageReturn]) ++ newline :: s.crlf := by
  have hl := crlf_of_newline_not_mem h
  unfold crlf at hl ⊢
  rw [List.flatMap_append, List.flatMap_cons, hl, if_pos rfl, List.append_assoc]
  rfl

/-- Each line but the last gets a carriage return. -/
theorem forall₂_lines_crlf (s : Text) : List.Forall₂ Ending s.lines s.crlf.lines := by
  induction s using line_induction with
  | last l hl =>
    rw [crlf_of_newline_not_mem hl, lines_of_newline_not_mem hl]
    exact .cons (.inl rfl) .nil
  | line l s hl ih =>
    have hend : newline ∉ l ++ [carriageReturn] := by
      rw [List.mem_append, not_or]
      exact ⟨hl, by decide⟩
    rw [crlf_append_line hl, lines_append_line hl, lines_append_line hend]
    exact .cons (.inr rfl) ih

/-- A byte that the mark does not have does not change where a text is cut. -/
theorem cut_append_singleton {mark : Text} {b : UInt8} (hb : b ∉ mark) (s : Text) :
    cut mark (s ++ [b]) = (cut mark s).map fun parts => (parts.1, parts.2 ++ [b]) := by
  -- a mark without the byte cannot reach into it
  have hstart : ∀ t : Text, mark.isPrefixOf (t ++ [b]) = mark.isPrefixOf t := by
    intro t
    rw [Bool.eq_iff_iff, List.isPrefixOf_iff_prefix, List.isPrefixOf_iff_prefix, List.prefix_concat_iff]
    refine or_iff_right fun heq => hb ?_
    rw [heq]
    exact List.mem_append_right t (List.mem_singleton_self b)
  induction s with
  | nil =>
    rw [List.nil_append, cut_cons, ← List.nil_append [b], hstart]
    cases mark with
    | nil => rfl
    | cons c mark => rfl
  | cons c s ih =>
    rw [List.cons_append, cut_cons, cut_cons, ← List.cons_append, hstart]
    split
    · next hpre =>
      have hle := (List.isPrefixOf_iff_prefix.1 hpre).length_le
      rw [List.drop_append_of_le_length hle]
      rfl
    · rw [ih, Option.map_map, Option.map_map]
      rfl

end Text

open Text

namespace Preprocess

/-- A carriage return at the end of a line does not count. -/
theorem content_append_carriageReturn (l : Text) : content (l ++ [carriageReturn]) = content l := by
  unfold content before
  rw [cut_append_singleton (by decide)]
  cases cut (ascii "//") l with
  | none => exact trim_append_blank l (by decide)
  | some parts => rfl

/-- Lines with the same content have the same result. -/
theorem line_congr {s t : Text} (h : content s = content t) (table : MacroTable) (n : Nat) :
    line table n s = line table n t := by
  unfold line
  rw [h]

/-- Of the lines only what counts is looked at. -/
theorem linesFrom_congr {ss ts : List Text} (h : ss.map content = ts.map content) (table : MacroTable) (n : Nat) :
    linesFrom table n ss = linesFrom table n ts := by
  induction ss generalizing ts table n with
  | nil =>
    obtain rfl : ts = [] := List.map_eq_nil_iff.1 h.symm
    rfl
  | cons s ss ih =>
    cases ts with
    | nil => exact absurd h (List.cons_ne_nil _ _)
    | cons t ts =>
      obtain ⟨hfirst, hrest⟩ := List.cons.inj h
      rw [linesFrom, linesFrom, line_congr hfirst, ih hrest]

end Preprocess

namespace Comment

/-- A carriage return stays in the code and goes with a comment. -/
theorem scanFrom_append_carriageReturn (place : Place) (n : Nat) (l : Text) :
    (scanFrom place n (l ++ [carriageReturn])).place = (scanFrom place n l).place ∧
    Ending (scanFrom place n l).text (scanFrom place n (l ++ [carriageReturn])).text := by
  rw [scanFrom_append_cons (by decide)]
  refine ⟨rfl, ?_⟩
  rw [Scan.text_after, keptText_append, ← Scan.text_eq]
  cases (scanFrom place n l).place with
  | code => exact .inr (List.append_nil _)
  | comment opened => exact .inl ((List.append_nil _).trans (List.append_nil _))

/-- What a line leaves that counts, and where its scan ends, does not depend on its ending. -/
theorem scanFrom_of_ending {l l' : Text} (h : Ending l l') (place : Place) (n : Nat) :
    Preprocess.content (scanFrom place n l').text = Preprocess.content (scanFrom place n l).text ∧
    (scanFrom place n l').place = (scanFrom place n l).place := by
  rcases h with rfl | rfl
  · exact ⟨rfl, rfl⟩
  · obtain ⟨hplace, htext | htext⟩ := scanFrom_append_carriageReturn place n l
    · exact ⟨congrArg _ htext, hplace⟩
    · rw [htext]
      exact ⟨Preprocess.content_append_carriageReturn _, hplace⟩

/-- Carriage returns at the ends of lines change neither contents nor comments. -/
theorem scanLines_of_endings {ls ls' : List Text} (h : List.Forall₂ Ending ls ls') (place : Place) (n : Nat) :
    (scanLines place n ls').map (fun r => (Preprocess.content r.text, r.place)) =
      (scanLines place n ls).map (fun r => (Preprocess.content r.text, r.place)) := by
  induction h generalizing place n with
  | nil => rfl
  | cons hl _ ih =>
    obtain ⟨hcontent, hplace⟩ := scanFrom_of_ending hl place n
    rw [scanLines, scanLines, List.map_cons, List.map_cons, hcontent, hplace, ih]

end Comment

/-- Sources whose lines differ in their endings only. -/
theorem preprocess_eq_of_endings {s t : Text} (h : List.Forall₂ Ending s.lines t.lines) :
    preprocess t = preprocess s := by
  have hscans := Comment.scanLines_of_endings h .code 1
  -- preprocessing looks at two things only: the contents of the lines, and the place at the end
  have hcontents : (Comment.strip t).text.lines.map Preprocess.content =
      (Comment.strip s).text.lines.map Preprocess.content := by
    have hmap := congrArg (List.map Prod.fst) hscans
    rw [List.map_map, List.map_map] at hmap
    rw [Comment.lines_strip, Comment.lines_strip, List.map_map, List.map_map]
    exact hmap
  have hplace : (Comment.scan t).place = (Comment.scan s).place := by
    have hlast := congrArg (fun rs => rs.getLast?.map Prod.snd) hscans
    simp only [List.getLast?_map, Option.map_map] at hlast
    have ht := Comment.getLast?_scanLines .code 1 t
    have hs := Comment.getLast?_scanLines .code 1 s
    exact Option.some.inj (ht.symm.trans (hlast.trans hs))
  have hresults : Preprocess.results t = Preprocess.results s :=
    Preprocess.linesFrom_congr hcontents [] 1
  have hopen : (Comment.strip t).openLine = (Comment.strip s).openLine := by
    rw [Preprocess.openLine_strip, Preprocess.openLine_strip, hplace]
  unfold Preprocess.results at hresults
  unfold preprocess
  dsimp only
  rw [hresults, hopen]

/-- **Line endings do not matter.** A source in which a carriage return stands before every newline gives the same
preprocessed lines and text, macros and diagnostics, and compiles to the same result. -/
theorem line_endings_do_not_matter (s : Text) :
    preprocess s.crlf = preprocess s ∧
    (preprocess s.crlf).output = (preprocess s).output ∧
    compile s.crlf = compile s := by
  have hpreprocess : preprocess s.crlf = preprocess s := preprocess_eq_of_endings (forall₂_lines_crlf s)
  refine ⟨hpreprocess, congrArg Preprocessed.output hpreprocess, ?_⟩
  unfold compile
  rw [hpreprocess]

end Microcode
