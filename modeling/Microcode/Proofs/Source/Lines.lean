import Microcode.Proofs.Text.Basic
import Microcode.Source.Preprocess

/-!
# Preprocessed lines

No newline gets into a preprocessed line: the lines of a source have none, and neither have the values of
macros, which come from such lines, so expansion adds none (`newline_not_mem_lines`).
-/

namespace Microcode

open Text

namespace MacroTable

/-- No value of a macro has a newline. -/
def OneLine (t : MacroTable) : Prop :=
  ∀ m ∈ t, newline ∉ m.value

variable {t : MacroTable} {line : Text}

theorem OneLine.append_none (ht : t.OneLine) : (t ++ (none : Option Macro).toList).OneLine := by
  rw [Option.toList_none, List.append_nil]
  exact ht

theorem mem_of_mem_piece {piece : Piece} (hpiece : piece ∈ Piece.ofText line) {b : UInt8}
    (hb : b ∈ piece.text) : b ∈ line := by
  rw [← Piece.flatMap_text_ofText line]
  exact List.mem_flatMap.2 ⟨piece, hpiece, hb⟩

/-- What stands for a piece is the value of a macro or the piece itself. -/
theorem expandPiece_cases (t : MacroTable) (piece : Piece) :
    (∃ m ∈ t, t.expandPiece piece = m.value) ∨ t.expandPiece piece = piece.text := by
  cases piece with
  | other b => exact .inr rfl
  | word w =>
    unfold expandPiece expandWord
    dsimp only
    split
    · next m hfind => exact .inl ⟨m, List.mem_of_find?_eq_some hfind, rfl⟩
    · exact .inr rfl

/-- Substitution makes no new lines. -/
theorem OneLine.substitute (ht : t.OneLine) (hline : newline ∉ line) :
    newline ∉ t.substitute line := by
  intro h
  obtain ⟨piece, hpiece, hmem⟩ := List.mem_flatMap.1 h
  rcases t.expandPiece_cases piece with ⟨m, hm, hvalue⟩ | htext
  · rw [hvalue] at hmem
    exact ht m hm hmem
  · rw [htext] at hmem
    exact hline (mem_of_mem_piece hpiece hmem)

theorem OneLine.expandFor (ht : t.OneLine) (rounds : Nat) (hline : newline ∉ line) :
    newline ∉ (t.expandFor rounds line).1 := by
  induction rounds generalizing line with
  | zero => exact hline
  | succ rounds ih =>
    unfold MacroTable.expandFor
    split
    · dsimp only
      split
      · exact ht.substitute hline
      · exact ih (ht.substitute hline)
    · exact hline

end MacroTable

namespace Preprocess

theorem before_isPrefix (mark s : Text) : before mark s <+: s := by
  unfold before
  split
  · next head tail hcut =>
    rw [eq_of_cut_eq_some hcut, List.append_assoc]
    exact List.prefix_append head _
  · exact List.prefix_rfl

theorem mem_of_mem_content {s : Text} {b : UInt8} (h : b ∈ content s) : b ∈ s :=
  (before_isPrefix _ s).subset (mem_of_mem_trim h)

/-- The value of a definition is part of its line. -/
theorem mem_of_mem_value {line name value : Text} (h : parseDefine line = some (name, value)) {b : UInt8}
    (hb : b ∈ value) : b ∈ line := by
  have hbehind : ((line.drop defineWord.length).dropWhile isGap).dropWhile isWord <:+ line :=
    (List.dropWhile_suffix _).trans ((List.dropWhile_suffix _).trans (List.drop_suffix _ line))
  unfold parseDefine at h
  dsimp only at h
  split at h
  · split at h
    · cases h
    · next hname hrest _ =>
      cases h
      exact hbehind.subset (mem_of_mem_trim hb)
  · cases h

/-- A definition is echoed on one line, and the value that it gives has no newline. -/
theorem newline_not_mem_define {table : MacroTable} (ht : table.OneLine) (n : Nat) {s : Text}
    (hs : newline ∉ s) :
    newline ∉ (define table n s).output ∧ (table ++ (define table n s).defined.toList).OneLine := by
  have hecho : newline ∉ ascii "// " ++ s := by
    rw [List.mem_append, not_or]
    exact ⟨by decide, hs⟩
  unfold define
  dsimp only
  split
  · exact ⟨hecho, ht.append_none⟩
  · next name value hparse =>
    split
    · -- a second definition of a name is echoed but not taken
      exact ⟨hecho, ht.append_none⟩
    · refine ⟨hecho, List.forall_mem_append.2 ⟨ht, List.forall_mem_singleton.2 ?_⟩⟩
      exact fun hmem => hs (mem_of_mem_value hparse hmem)

/-- A line gives a line, and the values of the macros behind it have no newline. -/
theorem newline_not_mem_line {table : MacroTable} (ht : table.OneLine) (n : Nat) {s : Text}
    (hs : newline ∉ s) :
    newline ∉ (line table n s).output ∧ (table ++ (line table n s).defined.toList).OneLine := by
  have hcontent : newline ∉ content s := fun h => hs (mem_of_mem_content h)
  unfold line
  dsimp only
  split
  · exact newline_not_mem_define ht n hcontent
  · split
    · exact ⟨hcontent, ht.append_none⟩
    · have hexpand : newline ∉ (table.expand (content s)).1 :=
        ht.expandFor MacroTable.maxRounds hcontent
      exact ⟨hexpand, ht.append_none⟩

/-- Every result is a single line. -/
theorem newline_not_mem_linesFrom {table : MacroTable} (ht : table.OneLine) (n : Nat) {ss : List Text}
    (hss : ∀ s ∈ ss, newline ∉ s) : ∀ r ∈ linesFrom table n ss, newline ∉ r.output := by
  induction ss generalizing table n with
  | nil => exact List.forall_mem_nil _
  | cons s ss ih =>
    obtain ⟨hs, hss⟩ := List.forall_mem_cons.1 hss
    obtain ⟨houtput, htable⟩ := newline_not_mem_line ht n hs
    exact List.forall_mem_cons.2 ⟨houtput, ih htable (n + 1) hss⟩

end Preprocess

/-- **Preprocessed lines are lines.** -/
theorem newline_not_mem_lines (source : Text) : ∀ line ∈ (preprocess source).lines, newline ∉ line := by
  intro line hline
  obtain ⟨r, hr, rfl⟩ := List.mem_map.1 hline
  refine Preprocess.newline_not_mem_linesFrom (List.forall_mem_nil _) 1 ?_ r hr
  exact fun s hs => newline_not_mem_of_mem_lines hs

end Microcode
