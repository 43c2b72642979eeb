import Microcode.Proofs.Source.Fidelity

/-!
# A line is read without the lines behind it

Comments are removed from a source as a whole, with a search for the end of each. Still, no delimiter goes across a
newline, so the same comes out if the lines are scanned one after another, each from the place where the scan of the
line before it has ended (`Comment.lines_text_scanFrom`). A macro counts from the line behind its definition on. So the
first lines of a source alone decide what they give (`Preprocess.take_results`), which macros are defined on them and
what is reported about them, an open comment apart.
-/

namespace Microcode

open Text

namespace Text

/-! ## Lines -/

theorem lines_of_newline_not_mem {l : Text} (h : newline ∉ l) : l.lines = [l] :=
  List.splitOn_eq_singleton h

/-- A line ends at its newline. -/
theorem lines_append_line {l : Text} (h : newline ∉ l) (s : Text) : (l ++ newline :: s).lines = l :: s.lines := by
  rw [lines_append_newline, lines_of_newline_not_mem h]
  rfl

/-- A text is a line, or a line, a newline and a text. -/
theorem line_induction {P : Text → Prop} (last : ∀ l, newline ∉ l → P l)
    (line : ∀ l s, newline ∉ l → P s → P (l ++ newline :: s)) (s : Text) : P s := by
  have hlines : ∀ ls : List Text, ls ≠ [] → (∀ l ∈ ls, newline ∉ l) → P (unlines ls) := by
    intro ls hne hls
    induction ls with
    | nil => exact absurd rfl hne
    | cons l ls ih =>
      obtain ⟨hl, hls⟩ := List.forall_mem_cons.1 hls
      unfold unlines
      cases ls with
      | nil =>
        rw [List.intercalate_singleton]
        exact last l hl
      | cons next ls =>
        rw [List.intercalate_cons_cons, List.append_assoc, List.singleton_append]
        exact line l _ hl (ih (List.cons_ne_nil next ls) hls)
  have hunlines : unlines s.lines = s := List.intercalate_splitOn newline
  rw [← hunlines]
  exact hlines _ (List.splitOn_ne_nil newline s) fun l hl => newline_not_mem_of_mem_lines hl

end Text

namespace Comment

/-! ## Comments line by line -/

/-- A byte that does not start a delimiter is read by itself. -/
theorem scanFrom_cons {place : Place} {b : UInt8} {s : Text} (h : ∀ c ∈ s.head?, [b, c] ≠ place.delimiter) (line : Nat) :
    scanFrom place line (b :: s) =
      (scanFrom place (lineAfter line b) s).after [⟨b, line, place.inComment⟩] := by
  cases s with
  | nil => rfl
  | cons c s => rw [scanFrom, if_neg (h c rfl)]

theorem ne_delimiter {b c d : UInt8} (h : d ∉ opening) (hd : d ∈ [b, c]) (place : Place) : [b, c] ≠ place.delimiter := by
  have hsub : place.delimiter ⊆ opening := by
    cases place with
    | code => exact List.Subset.refl _
    | comment opened =>
      show closing ⊆ opening
      decide
  intro heq
  rw [heq] at hd
  exact h (hsub hd)

/-- At a byte of no delimiter a text can be taken apart: the scan goes on behind it from where it was before it. -/
theorem scanFrom_append_cons {c : UInt8} (hc : c ∉ opening) (place : Place) (line : Nat) (s t : Text) :
    scanFrom place line (s ++ c :: t) =
      (scanFrom (scanFrom place line s).place (lineAfter (line + s.count newline) c) t).after
        ((scanFrom place line s).bytes ++
          [⟨c, line + s.count newline, (scanFrom place line s).place.inComment⟩]) := by
  have hfirst : ∀ (place : Place) (b : UInt8), [c, b] ≠ place.delimiter :=
    fun place b => ne_delimiter hc List.mem_cons_self place
  have hsecond : ∀ (place : Place) (b : UInt8), [b, c] ≠ place.delimiter :=
    fun place b => ne_delimiter hc (List.mem_cons_of_mem b List.mem_cons_self) place
  -- the byte is no part of a delimiter, so the scan of the first text is over when it gets there
  fun_induction scanFrom place line s with
  | case1 line place =>
    rw [List.nil_append, scanFrom_cons fun b _ => hfirst place b]
    rfl
  | case2 place line b =>
    have hnext : ∀ d ∈ (c :: t).head?, [b, d] ≠ place.delimiter := by
      intro d hd
      obtain rfl : c = d := Option.some.inj hd
      exact hsecond place b
    rw [List.singleton_append, scanFrom_cons hnext, scanFrom_cons fun d _ => hfirst place d, ← Scan.after_append]
    rfl
  | case3 place line b d s hdelimiter ih =>
    obtain ⟨hb, hd⟩ := ne_newline_of_delimiter hdelimiter
    have hcount : line + (b :: d :: s).count newline = line + s.count newline := by
      rw [add_count_cons, lineAfter_of_ne hb, add_count_cons, lineAfter_of_ne hd]
    rw [hcount, List.cons_append, List.cons_append, scanFrom, if_pos hdelimiter, ih, ← Scan.after_append,
      ← List.append_assoc]
    rfl
  | case4 place line b d s hdelimiter ih =>
    rw [add_count_cons, List.cons_append, List.cons_append, scanFrom, if_neg hdelimiter]
    rw [List.cons_append] at ih
    rw [ih, ← Scan.after_append, ← List.append_assoc]
    rfl

/-- The scans of the lines from line `n` on, each from where the one before it has ended. -/
def scanLines : Place → (n : Nat) → List Text → List Scan
  | _, _, [] => []
  | place, n, l :: ls => scanFrom place n l :: scanLines (scanFrom place n l).place (n + 1) ls

/-- What is kept of the first lines depends on them only. -/
theorem take_scanLines (place : Place) (n k : Nat) (ls : List Text) :
    (scanLines place n ls).take k = scanLines place n (ls.take k) := by
  induction ls generalizing place n k with
  | nil => rw [List.take_nil, scanLines, List.take_nil]
  | cons l ls ih =>
    cases k with
    | zero => rfl
    | succ k => rw [List.take_succ_cons, scanLines, scanLines, List.take_succ_cons, ih]

theorem mem_of_mem_text {place : Place} {n : Nat} {s : Text} {b : UInt8} (h : b ∈ (scanFrom place n s).text) : b ∈ s := by
  obtain ⟨x, hx, rfl⟩ := List.mem_map.1 h
  have hmem : x.numbered ∈ numberedFrom n s := by
    rw [← map_numbered_scanFrom place n s]
    exact List.mem_map_of_mem (List.mem_filter.1 hx).1
  obtain ⟨i, hi, heq⟩ := List.mem_mapIdx.1 hmem
  rw [← (Prod.mk.inj heq).1]
  exact List.getElem_mem hi

/-- Behind a newline the scan goes on as it would on a line of its own. -/
theorem scanFrom_append_line (place : Place) (n : Nat) {l : Text} (hl : newline ∉ l) (s : Text) :
    scanFrom place n (l ++ newline :: s) =
      (scanFrom (scanFrom place n l).place (n + 1) s).after
        ((scanFrom place n l).bytes ++ [⟨newline, n, (scanFrom place n l).place.inComment⟩]) := by
  rw [scanFrom_append_cons (by decide), List.count_eq_zero.2 hl]
  rfl

/-- A newline stays, be it in the code or in a comment. -/
theorem text_append_line (place : Place) (n : Nat) {l : Text} (hl : newline ∉ l) (s : Text) :
    (scanFrom place n (l ++ newline :: s)).text =
      (scanFrom place n l).text ++ newline :: (scanFrom (scanFrom place n l).place (n + 1) s).text := by
  have hkept : keptText [⟨newline, n, (scanFrom place n l).place.inComment⟩] = [newline] := by
    cases (scanFrom place n l).place <;> rfl
  rw [scanFrom_append_line place n hl, Scan.text_after, keptText_append, hkept, List.append_assoc,
    List.singleton_append]
  rfl

/-- **Comments can be removed line by line.** -/
theorem lines_text_scanFrom (place : Place) (n : Nat) (s : Text) :
    (scanFrom place n s).text.lines = (scanLines place n s.lines).map (·.text) := by
  have hkept : ∀ (place : Place) (n : Nat) {l : Text}, newline ∉ l → newline ∉ (scanFrom place n l).text :=
    fun place n l hl hmem => hl (mem_of_mem_text hmem)
  induction s using line_induction generalizing place n with
  | last l hl =>
    rw [lines_of_newline_not_mem hl, lines_of_newline_not_mem (hkept place n hl)]
    rfl
  | line l s hl ih =>
    rw [lines_append_line hl, text_append_line place n hl, lines_append_line (hkept place n hl), ih]
    rfl

/-- The scan of a text ends where the scan of its last line does. -/
theorem getLast?_scanLines (place : Place) (n : Nat) (s : Text) :
    (scanLines place n s.lines).getLast?.map (·.place) = some (scanFrom place n s).place := by
  induction s using line_induction generalizing place n with
  | last l hl =>
    rw [lines_of_newline_not_mem hl]
    rfl
  | line l s hl ih =>
    have hlast : (scanLines place n (l :: s.lines)).getLast? =
        (scanLines (scanFrom place n l).place (n + 1) s.lines).getLast? := by
      obtain ⟨first, rest, hlines⟩ := List.exists_cons_of_ne_nil (List.splitOn_ne_nil newline s)
      rw [scanLines, lines, hlines, scanLines, List.getLast?_cons_cons]
    rw [lines_append_line hl, hlast, ih, scanFrom_append_line place n hl]
    rfl

/-- Comments are removed line by line, with the place carried on from line to line. -/
theorem lines_strip (source : Text) :
    (strip source).text.lines = (scanLines .code 1 source.lines).map (·.text) := by
  rw [strip, stripFrom_eq_scanFrom]
  exact lines_text_scanFrom .code 1 source

end Comment

/-! ## The first lines -/

namespace Preprocess

/-- The first results depend on the first lines only. -/
theorem take_linesFrom (table : MacroTable) (n k : Nat) (ss : List Text) :
    (linesFrom table n ss).take k = linesFrom table n (ss.take k) := by
  induction ss generalizing table n k with
  | nil => rw [List.take_nil, linesFrom, List.take_nil]
  | cons s ss ih =>
    cases k with
    | zero => rfl
    | succ k => rw [List.take_succ_cons, linesFrom, linesFrom, List.take_succ_cons, ih]

/-- What the first lines give is decided by them. -/
theorem take_results (source : Text) (n : Nat) :
    (results source).take n =
      linesFrom [] 1 ((Comment.scanLines .code 1 (source.lines.take n)).map (·.text)) := by
  rw [results, take_linesFrom, Comment.lines_strip, ← List.map_take, Comment.take_scanLines]

/-- A line defines a macro under its own number. -/
theorem line_of_defined {table : MacroTable} {n : Nat} {s : Text} {m : Macro}
    (h : (line table n s).defined = some m) : m.line = n := by
  unfold line at h
  dsimp only at h
  split at h
  · unfold define at h
    dsimp only at h
    split at h
    · cases h
    · split at h
      · cases h
      · cases h
        rfl
  · split at h
    · cases h
    · cases h

/-- The macros of some lines are defined on these lines. -/
theorem line_of_mem_macros {table : MacroTable} {n : Nat} {ss : List Text} {m : Macro}
    (h : m ∈ (linesFrom table n ss).filterMap (·.defined)) : n ≤ m.line ∧ m.line < n + ss.length := by
  induction ss generalizing table n with
  | nil => exact absurd h List.not_mem_nil
  | cons s ss ih =>
    rw [linesFrom, ← List.singleton_append, List.filterMap_append, List.mem_append] at h
    rw [List.length_cons]
    rcases h with h | h
    · obtain ⟨r, hr, hdefined⟩ := List.mem_filterMap.1 h
      rw [List.mem_singleton.1 hr] at hdefined
      have hline := line_of_defined hdefined
      omega
    · have hrest := ih h
      omega

/-- A filter that takes apart what was put together. -/
theorem filter_append_eq_left {α : Type} {p : α → Bool} {xs ys : List α} (hxs : ∀ x ∈ xs, p x = true)
    (hys : ∀ y ∈ ys, ¬ p y = true) : (xs ++ ys).filter p = xs := by
  rw [List.filter_append, List.filter_eq_self.2 hxs, List.filter_eq_nil_iff.2 hys, List.append_nil]

/-- The macros that are defined on the first lines. -/
theorem filter_macros (table : MacroTable) (n k : Nat) (ss : List Text) :
    ((linesFrom table n ss).filterMap (·.defined)).filter (fun m : Macro => decide (m.line < n + k)) =
      ((linesFrom table n ss).take k).filterMap (·.defined) := by
  have hsplit := linesFrom_append table n (ss.take k) (ss.drop k)
  rw [List.take_append_drop] at hsplit
  rw [take_linesFrom, hsplit, List.filterMap_append]
  refine filter_append_eq_left (fun m hm => ?_) (fun m hm hlt => ?_)
  · have hline := line_of_mem_macros hm
    rw [List.length_take] at hline
    exact decide_eq_true (by omega)
  · have hline := line_of_mem_macros hm
    have hlt := of_decide_eq_true hlt
    rw [List.length_take, List.length_drop] at hline
    omega

/-- The diagnostics of the first lines. -/
theorem filter_diagnosticsFrom (n k : Nat) (rs : List LineResult) :
    (diagnosticsFrom n rs).filter (fun d : Diagnostic => decide (d.line < n + k)) = diagnosticsFrom n (rs.take k) := by
  have hsplit := diagnosticsFrom_append n (rs.take k) (rs.drop k)
  rw [List.take_append_drop] at hsplit
  rw [hsplit]
  refine filter_append_eq_left (fun d hd => ?_) (fun d hd hlt => ?_)
  · have hline := (exists_of_mem_diagnosticsFrom hd).2.1
    rw [List.length_take] at hline
    exact decide_eq_true (by omega)
  · obtain ⟨hle, hline, -⟩ := exists_of_mem_diagnosticsFrom hd
    have hlt := of_decide_eq_true hlt
    rw [List.length_take] at hle hline
    rw [List.length_drop] at hline
    omega

/-! ## Preprocessed sources -/

theorem take_lines (source : Text) (n : Nat) :
    (preprocess source).lines.take n = ((results source).take n).map (·.output) :=
  List.map_take.symm

/-- The macros of the first lines are those that these lines define. -/
theorem filter_macros_le (source : Text) (n : Nat) :
    (preprocess source).macros.filter (fun m : Macro => m.line ≤ n) =
      ((results source).take n).filterMap (·.defined) := by
  rw [results, ← filter_macros]
  refine List.filter_congr fun m _ => ?_
  rw [decide_eq_decide]
  omega

/-- An open comment apart, the diagnostics are those of the lines. -/
theorem filter_errors (source : Text) (q : Diagnostic → Bool) :
    (preprocess source).errors.filter (fun d => q d && !d.isUnterminated) =
      (diagnosticsFrom 1 (results source)).filter q := by
  have hopen : ∀ place : Comment.Place, (place.opened?.toList.map fun k : Nat =>
      (⟨k, SourceProblem.unterminated.message⟩ : Diagnostic)).filter (fun d => q d && !d.isUnterminated) = [] := by
    intro place
    cases place with
    | code => rfl
    | comment k => simp [Comment.Place.opened?, Diagnostic.isUnterminated]
  rw [errors_preprocess, List.filter_append, hopen, List.append_nil]
  refine List.filter_congr fun d hd => ?_
  rw [isUnterminated_of_mem hd, Bool.not_false, Bool.and_true]

/-- The diagnostics of the first lines are those of their results. -/
theorem filter_errors_le (source : Text) (n : Nat) :
    (preprocess source).errors.filter (fun d : Diagnostic => d.line ≤ n && !d.isUnterminated) =
      diagnosticsFrom 1 ((results source).take n) := by
  rw [filter_errors source fun d => d.line ≤ n, ← filter_diagnosticsFrom]
  refine List.filter_congr fun d _ => ?_
  rw [decide_eq_decide]
  omega

end Preprocess

/-- **Preprocessing is causal.** Two sources with the same first `n` lines, whether or not a newline ends the last of
them, have the same first `n` preprocessed lines, the same macros defined on these lines, and the same diagnostics about
them, an open comment apart. Nothing that comes behind a line changes how the line is read: no end of a comment, no
definition and no second definition. -/
theorem preprocess_causal {s t : Text} {n : Nat} (h : s.lines.take n = t.lines.take n) :
    (preprocess s).lines.take n = (preprocess t).lines.take n ∧
    (preprocess s).macros.filter (fun m : Macro => m.line ≤ n) =
      (preprocess t).macros.filter (fun m : Macro => m.line ≤ n) ∧
    (preprocess s).errors.filter (fun d : Diagnostic => d.line ≤ n && !d.isUnterminated) =
      (preprocess t).errors.filter (fun d : Diagnostic => d.line ≤ n && !d.isUnterminated) := by
  have hresults : (Preprocess.results s).take n = (Preprocess.results t).take n := by
    rw [Preprocess.take_results, Preprocess.take_results, h]
  refine ⟨?_, ?_, ?_⟩
  · rw [Preprocess.take_lines, Preprocess.take_lines, hresults]
  · rw [Preprocess.filter_macros_le, Preprocess.filter_macros_le, hresults]
  · rw [Preprocess.filter_errors_le, Preprocess.filter_errors_le, hresults]

/-- A comment that is open on line 2 is closed later in one of two sources only, and that source defines the name on
line 2 afterwards. Their diagnostics differ, but not those about the first two lines. -/
theorem preprocess_causal_open_comment :
    (ascii "#define A\nOUTPUT B /* x\n*/\n#define B yreg\n").lines.take 2 =
      (ascii "#define A\nOUTPUT B /* x\ny").lines.take 2 ∧
    (preprocess (ascii "#define A\nOUTPUT B /* x\n*/\n#define B yreg\n")).errors ≠
      (preprocess (ascii "#define A\nOUTPUT B /* x\ny")).errors ∧
    (preprocess (ascii "#define A\nOUTPUT B /* x\n*/\n#define B yreg\n")).lines.take 2 =
      (preprocess (ascii "#define A\nOUTPUT B /* x\ny")).lines.take 2 ∧
    (preprocess (ascii "#define A\nOUTPUT B /* x\n*/\n#define B yreg\n")).errors.filter
        (fun d : Diagnostic => d.line ≤ (2 : Nat) && !d.isUnterminated) =
      (preprocess (ascii "#define A\nOUTPUT B /* x\ny")).errors.filter
        (fun d : Diagnostic => d.line ≤ (2 : Nat) && !d.isUnterminated) := by
  have hfirst : (ascii "#define A\nOUTPUT B /* x\n*/\n#define B yreg\n").lines.take 2 =
      (ascii "#define A\nOUTPUT B /* x\ny").lines.take 2 := by
    decide +kernel
  obtain ⟨hlines, -, herrors⟩ := preprocess_causal hfirst
  exact ⟨hfirst, by decide +kernel, hlines, herrors⟩

end Microcode
