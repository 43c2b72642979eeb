import Microcode.Proofs.Source.Lines
import Microcode.Proofs.Source.Scan

/-!
# Lines keep their numbers

Diagnostics name a line by its number, so preprocessing must neither add nor lose a line. A preprocessed
source is `Faithful`: it has the lines of the source, and its diagnostics come in the order of the lines, at
most one for each line, before the one about a comment that is not closed. That one is last because nothing
comes after the opening of the comment but newlines (`Comment.exists_replicate_of_openLine`), and an empty line
gives an empty line and no diagnostic.
-/

namespace Microcode

open Text

/-! ## Removing comments -/

/-- Newlines at the end of a text are empty lines behind it. -/
theorem Text.lines_append_replicate (s : Text) (k : Nat) :
    (s ++ List.replicate k newline).lines = s.lines ++ List.replicate k [] := by
  induction k generalizing s with
  | zero => rw [List.replicate_zero, List.append_nil, List.replicate_zero, List.append_nil]
  | succ k ih =>
    calc (s ++ List.replicate (k + 1) newline).lines
        = ((s ++ [newline]) ++ List.replicate k newline).lines := by
          rw [List.replicate_succ, List.append_assoc, List.singleton_append]
      _ = (s.lines ++ [[]]) ++ List.replicate k [] := by
          rw [ih, lines_append_newline]
          rfl
      _ = s.lines ++ List.replicate (k + 1) [] := by
          rw [List.append_assoc, List.singleton_append, List.replicate_succ]

namespace Comment

theorem count_newlines (s : Text) : (newlines s).count newline = s.count newline :=
  List.count_replicate_self

/-- Removing comments loses no newline. -/
theorem count_newline_stripFrom (line : Nat) (s : Text) :
    (stripFrom line s).text.count newline = s.count newline := by
  have hopening : opening.count newline = 0 := by decide
  have hclosing : closing.count newline = 0 := by decide
  fun_induction stripFrom line s with
  | case1 line s hopen => rfl
  | case2 line s before rest hopen start hclose =>
    rw [eq_of_cut_eq_some hopen, List.count_append, List.count_append, List.count_append, count_newlines]
    omega
  | case3 line s before rest hopen start comment after hclose stripped ih =>
    have hstripped : stripped.text.count newline = after.count newline := ih
    rw [eq_of_cut_eq_some hopen, eq_of_cut_eq_some hclose]
    simp only [List.count_append, count_newlines]
    omega

/-- A comment that is not closed leaves newlines only, from the line on which it starts. -/
theorem exists_replicate_of_openLine {line n : Nat} {s : Text} (h : (stripFrom line s).openLine = some n) :
    ∃ front k, (stripFrom line s).text = front ++ List.replicate k newline ∧
      line + front.count newline = n := by
  fun_induction stripFrom line s with
  | case1 line s hopen => exact Option.noConfusion rfl (heq_of_eq h)
  | case2 line s before rest hopen start hclose =>
    exact ⟨before, rest.count newline, rfl, Option.some.inj h⟩
  | case3 line s before rest hopen start comment after hclose stripped ih =>
    obtain ⟨front, k, htext, hline⟩ := ih h
    refine ⟨before ++ newlines comment ++ front, k, ?_, ?_⟩
    · show before ++ newlines comment ++ stripped.text = _
      rw [show stripped.text = _ from htext, List.append_assoc _ front]
    · rw [List.count_append, List.count_append, count_newlines, ← hline]
      omega

end Comment

/-! ## Lines and their diagnostics -/

/-- Only an open comment is reported in these words. -/
theorem SourceProblem.message_ne_unterminated {problem : SourceProblem} (h : problem ≠ .unterminated) :
    problem.message ≠ SourceProblem.unterminated.message := by
  -- the first byte tells
  have hfirst : problem.message.head? = (ascii "M").head? := by
    cases problem with
    | malformedDefine line => rfl
    | redefinition name first => rfl
    | runaway => rfl
    | unterminated => exact absurd rfl h
  intro heq
  rw [heq] at hfirst
  exact absurd hfirst (by decide)

namespace Preprocess

/-- What an empty line gives. -/
def blank : LineResult := ⟨[], none, none⟩

theorem line_nil (table : MacroTable) (n : Nat) : line table n [] = blank := rfl

theorem linesFrom_replicate_nil (table : MacroTable) (n k : Nat) :
    linesFrom table n (List.replicate k []) = List.replicate k blank := by
  induction k generalizing table n with
  | zero => rfl
  | succ k ih =>
    rw [List.replicate_succ, linesFrom, line_nil, ih]
    rfl

/-- The macros of the first lines count on the lines behind them. -/
theorem linesFrom_append (table : MacroTable) (n : Nat) (ss ts : List Text) :
    linesFrom table n (ss ++ ts) = linesFrom table n ss ++
      linesFrom (table ++ (linesFrom table n ss).filterMap (·.defined)) (n + ss.length) ts := by
  induction ss generalizing table n with
  | nil =>
    rw [linesFrom, List.filterMap_nil, List.append_nil]
    rfl
  | cons s ss ih =>
    have htable : table ++ (line table n s).defined.toList ++
        (linesFrom (table ++ (line table n s).defined.toList) (n + 1) ss).filterMap (·.defined) =
        table ++ (linesFrom table n (s :: ss)).filterMap (·.defined) := by
      rw [List.append_assoc, linesFrom, List.filterMap_cons]
      cases (line table n s).defined <;> rfl
    rw [List.cons_append, linesFrom, ih, htable, List.length_cons, Nat.add_right_comm, ← Nat.add_assoc]
    rfl

/-- No line by itself leaves a comment open. -/
theorem problem_line_ne_unterminated (table : MacroTable) (n : Nat) (s : Text) :
    (line table n s).problem ≠ some .unterminated := by
  unfold line
  dsimp only
  split
  · unfold define
    dsimp only
    split
    · simp
    · split <;> simp
  · split
    · simp
    · unfold expand
      dsimp only
      split <;> simp

theorem problem_linesFrom_ne_unterminated (table : MacroTable) (n : Nat) (ss : List Text) :
    ∀ r ∈ linesFrom table n ss, r.problem ≠ some .unterminated := by
  induction ss generalizing table n with
  | nil => exact List.forall_mem_nil _
  | cons s ss ih => exact List.forall_mem_cons.2 ⟨problem_line_ne_unterminated table n s, ih _ (n + 1)⟩

theorem diagnosticsFrom_cons (n : Nat) (r : LineResult) (rs : List LineResult) :
    diagnosticsFrom n (r :: rs) =
      (r.problem.toList.map fun p => ⟨n, p.message⟩) ++ diagnosticsFrom (n + 1) rs := by
  unfold diagnosticsFrom
  rw [List.zipIdx_cons, List.flatMap_cons]

/-- The lines of the second part are numbered on from the first. -/
theorem diagnosticsFrom_append (n : Nat) (rs rs' : List LineResult) :
    diagnosticsFrom n (rs ++ rs') = diagnosticsFrom n rs ++ diagnosticsFrom (n + rs.length) rs' := by
  unfold diagnosticsFrom
  rw [List.zipIdx_append, List.flatMap_append]

theorem diagnosticsFrom_replicate_blank (n k : Nat) : diagnosticsFrom n (List.replicate k blank) = [] := by
  induction k generalizing n with
  | zero => rfl
  | succ k ih =>
    rw [List.replicate_succ, diagnosticsFrom_cons, ih]
    rfl

/-- A diagnostic is about one of the lines, and it has the wording of the problem there. -/
theorem exists_of_mem_diagnosticsFrom {n : Nat} {rs : List LineResult} {d : Diagnostic}
    (h : d ∈ diagnosticsFrom n rs) :
    (n : Int) ≤ d.line ∧ d.line < n + rs.length ∧ ∃ r ∈ rs, ∃ p, r.problem = some p ∧ d.message = p.message := by
  obtain ⟨⟨r, k⟩, hmem, hd⟩ := List.mem_flatMap.1 h
  obtain ⟨p, hp, rfl⟩ := List.mem_map.1 hd
  obtain ⟨hle, hlt, hr⟩ := List.mem_zipIdx hmem
  dsimp only at hle hlt hp ⊢
  refine ⟨by omega, by omega, r, ?_, p, Option.mem_toList.1 hp, rfl⟩
  rw [hr]
  exact List.getElem_mem _

/-- The diagnostics of lines come in the order of the lines, at most one for each. -/
theorem pairwise_diagnosticsFrom (n : Nat) (rs : List LineResult) :
    (diagnosticsFrom n rs).Pairwise fun d e => d.line < e.line := by
  induction rs generalizing n with
  | nil => exact .nil
  | cons r rs ih =>
    rw [diagnosticsFrom_cons]
    refine List.pairwise_append.2 ⟨?_, ih (n + 1), ?_⟩
    · cases r.problem with
      | none => exact .nil
      | some p => exact List.pairwise_singleton _ _
    · intro d hd e he
      obtain ⟨p, -, rfl⟩ := List.mem_map.1 hd
      have hline := (exists_of_mem_diagnosticsFrom he).1
      dsimp only
      omega

end Preprocess

/-! ## Preprocessed sources -/

/-- Whether a diagnostic is about a comment that is not closed. -/
def Diagnostic.isUnterminated (d : Diagnostic) : Bool :=
  d.message == SourceProblem.unterminated.message

/-- What a preprocessed source has in common with the source line by line. -/
structure Preprocessed.Faithful (p : Preprocessed) (source : Text) : Prop where
  /-- A line for each line of the source. -/
  length_lines : p.lines.length = source.count newline + 1
  newline_not_mem : ∀ l ∈ p.lines, newline ∉ l
  lines_output : p.output.lines = p.lines
  /-- Diagnostics come in the order of their lines. -/
  ordered : p.errors.Pairwise fun d e => d.line ≤ e.line
  in_range : ∀ d ∈ p.errors, 1 ≤ d.line ∧ d.line ≤ p.lines.length
  /-- An open comment apart, a line has at most one diagnostic. -/
  one_per_line : ∀ n : Int, p.errors.countP (fun d => d.line == n && !d.isUnterminated) ≤ 1
  /-- Before the last diagnostic none is about an open comment. -/
  unterminated_last : ∀ d ∈ p.errors.dropLast, d.isUnterminated = false
  /-- An open comment is reported exactly on the line on which the scan has found its opening. -/
  unterminated_iff : ∀ d : Diagnostic, d.isUnterminated = true →
    (d ∈ p.errors ↔ ∃ n : Nat, d.line = n ∧ (Comment.scan source).place = .comment n)
  /-- Behind the line on which an open comment starts all lines are empty. -/
  blank_after : ∀ n, (Comment.scan source).place = .comment n → ∀ l ∈ p.lines.drop n, l = []

namespace Preprocess

/-- What the lines of a source give. -/
def results (source : Text) : List LineResult :=
  linesFrom [] 1 (Comment.strip source).text.lines

/-- An unterminated comment is reported where it was opened. -/
theorem openLine_strip (source : Text) :
    (Comment.strip source).openLine = (Comment.scan source).place.opened? := by
  have h := Comment.stripFrom_eq_scanFrom 1 source
  rw [Comment.strip, h]
  rfl

/-- There is a result for each line. -/
theorem length_results (source : Text) : (results source).length = source.count newline + 1 := by
  rw [results, length_linesFrom, Text.length_lines, Comment.strip, Comment.count_newline_stripFrom]

/-- From the line behind the opening of an open comment on, all lines are blank. -/
theorem exists_results_of_comment {source : Text} {n : Nat} (h : (Comment.scan source).place = .comment n) :
    ∃ rs k, results source = rs ++ List.replicate k blank ∧ rs.length = n ∧ 0 < n := by
  have hopen : (Comment.strip source).openLine = some n := by
    rw [openLine_strip, h]
    rfl
  obtain ⟨front, k, htext, hn⟩ := Comment.exists_replicate_of_openLine hopen
  refine ⟨linesFrom [] 1 front.lines, k, ?_, ?_, by omega⟩
  · rw [results, Comment.strip, htext, lines_append_replicate, linesFrom_append, linesFrom_replicate_nil]
  · rw [length_linesFrom, Text.length_lines]
    omega

/-- The diagnostics are those of the lines, and at the end that of an open comment. -/
theorem errors_preprocess (source : Text) :
    (preprocess source).errors = diagnosticsFrom 1 (results source) ++
      (Comment.scan source).place.opened?.toList.map fun n => ⟨n, SourceProblem.unterminated.message⟩ := by
  rw [← openLine_strip]
  rfl

/-- A diagnostic is about a line by itself or about an open comment. -/
theorem mem_errors_iff {source : Text} {d : Diagnostic} :
    d ∈ (preprocess source).errors ↔ d ∈ diagnosticsFrom 1 (results source) ∨
      ∃ n : Nat, (Comment.scan source).place = .comment n ∧ d = ⟨n, SourceProblem.unterminated.message⟩ := by
  rw [errors_preprocess, List.mem_append]
  cases (Comment.scan source).place with
  | code => simp [Comment.Place.opened?]
  | comment n => simp [Comment.Place.opened?]

/-- The diagnostics of the lines are never about an open comment. -/
theorem isUnterminated_of_mem {source : Text} {d : Diagnostic} (h : d ∈ diagnosticsFrom 1 (results source)) :
    d.isUnterminated = false := by
  obtain ⟨-, -, r, hr, p, hp, hmessage⟩ := exists_of_mem_diagnosticsFrom h
  have hne : p ≠ .unterminated := by
    rintro rfl
    exact problem_linesFrom_ne_unterminated _ _ _ r hr hp
  rw [Diagnostic.isUnterminated, hmessage]
  exact beq_false_of_ne (SourceProblem.message_ne_unterminated hne)

/-- Behind the opening of an open comment there is nothing to report. -/
theorem line_le_of_comment {source : Text} {n : Nat} (h : (Comment.scan source).place = .comment n)
    {d : Diagnostic} (hd : d ∈ diagnosticsFrom 1 (results source)) : d.line ≤ n := by
  obtain ⟨rs, k, hresults, hlength, -⟩ := exists_results_of_comment h
  rw [hresults, diagnosticsFrom_append, diagnosticsFrom_replicate_blank, List.append_nil] at hd
  have hlt := (exists_of_mem_diagnosticsFrom hd).2.1
  omega

/-- Diagnostics come in the order of their lines. -/
theorem pairwise_errors (source : Text) :
    (preprocess source).errors.Pairwise fun d e => d.line ≤ e.line := by
  rw [errors_preprocess]
  refine List.pairwise_append.2 ⟨?_, ?_, ?_⟩
  · exact (pairwise_diagnosticsFrom 1 _).imp Int.le_of_lt
  · cases (Comment.scan source).place with
    | code => exact .nil
    | comment n => exact List.pairwise_singleton _ _
  · intro d hd e he
    cases hplace : (Comment.scan source).place with
    | code =>
      rw [hplace] at he
      exact absurd he List.not_mem_nil
    | comment n =>
      rw [hplace] at he
      rw [List.mem_singleton.1 he]
      exact line_le_of_comment hplace hd

/-- A diagnostic is about a line that exists. -/
theorem line_in_range {source : Text} {d : Diagnostic} (h : d ∈ (preprocess source).errors) :
    1 ≤ d.line ∧ d.line ≤ (results source).length := by
  rcases mem_errors_iff.1 h with hd | ⟨n, hplace, rfl⟩
  · obtain ⟨hle, hlt, -⟩ := exists_of_mem_diagnosticsFrom hd
    omega
  · obtain ⟨rs, k, hresults, hlength, hpos⟩ := exists_results_of_comment hplace
    have hle : rs.length ≤ (results source).length := by
      rw [hresults, List.length_append]
      omega
    dsimp only
    omega

/-- A line has at most one problem, an open comment aside. -/
theorem countP_errors_le_one (source : Text) (n : Int) :
    (preprocess source).errors.countP (fun d => d.line == n && !d.isUnterminated) ≤ 1 := by
  -- every result has at most one problem, and results have different lines
  have hlines : ((diagnosticsFrom 1 (results source)).map (·.line)).Nodup := by
    refine (List.pairwise_map.2 (pairwise_diagnosticsFrom 1 _)).imp ?_
    intro x y hlt
    exact Int.ne_of_lt hlt
  have hclosed : ∀ open? : Option Nat, (open?.toList.map fun n : Nat =>
      (⟨n, SourceProblem.unterminated.message⟩ : Diagnostic)).countP
        (fun d => d.line == n && !d.isUnterminated) = 0 := by
    intro open?
    cases open? with
    | none => rfl
    | some m => simp [Diagnostic.isUnterminated]
  calc (preprocess source).errors.countP (fun d => d.line == n && !d.isUnterminated)
      = (diagnosticsFrom 1 (results source)).countP (fun d => d.line == n && !d.isUnterminated) := by
        rw [errors_preprocess, List.countP_append, hclosed, Nat.add_zero]
    _ ≤ (diagnosticsFrom 1 (results source)).countP (fun d => d.line == n) := by
        refine List.countP_mono_left fun d _ hd => ?_
        exact (Bool.and_eq_true_iff.1 hd).1
    _ = ((diagnosticsFrom 1 (results source)).map (·.line)).count n := by
        rw [List.count, List.countP_map]
        rfl
    _ ≤ 1 := List.nodup_iff_count.1 hlines n

theorem isUnterminated_of_mem_dropLast {source : Text} {d : Diagnostic}
    (h : d ∈ (preprocess source).errors.dropLast) : d.isUnterminated = false := by
  apply @isUnterminated_of_mem source
  rw [errors_preprocess] at h
  cases hplace : (Comment.scan source).place with
  | code =>
    rw [hplace] at h
    simpa [Comment.Place.opened?] using List.dropLast_subset _ h
  | comment n =>
    rw [hplace] at h
    simpa [Comment.Place.opened?] using h

end Preprocess

/-- **Preprocessing keeps the lines of a source.** -/
theorem faithful_preprocess (source : Text) : (preprocess source).Faithful source := by
  have hlines : (preprocess source).lines = (Preprocess.results source).map (·.output) := rfl
  have hlength : (preprocess source).lines.length = (Preprocess.results source).length := by
    rw [hlines, List.length_map]
  have hnewline := newline_not_mem_lines source
  refine ⟨?_, hnewline, ?_, Preprocess.pairwise_errors source, ?_, Preprocess.countP_errors_le_one source,
    fun d => Preprocess.isUnterminated_of_mem_dropLast, ?_, ?_⟩
  · rw [hlength, Preprocess.length_results]
  · refine lines_unlines ?_ hnewline
    apply List.ne_nil_of_length_pos
    rw [hlength, Preprocess.length_results]
    omega
  · intro d hd
    rw [hlength]
    exact Preprocess.line_in_range hd
  · intro d hd
    rw [Preprocess.mem_errors_iff]
    constructor
    · rintro (hline | ⟨n, hplace, rfl⟩)
      · rw [Preprocess.isUnterminated_of_mem hline] at hd
        exact Bool.noConfusion hd
      · exact ⟨n, rfl, hplace⟩
    · rintro ⟨n, hline, hplace⟩
      -- an open comment is recognised by its message
      have hmessage : d.message = SourceProblem.unterminated.message := eq_of_beq hd
      refine .inr ⟨n, hplace, ?_⟩
      rw [← hline, ← hmessage]
  · intro n hplace l hl
    -- behind the line of the opening mark there are only blank results
    obtain ⟨rs, k, hresults, hn, -⟩ := Preprocess.exists_results_of_comment hplace
    rw [hlines, hresults, List.map_append, ← hn, ← List.length_map (f := (·.output)), List.drop_left,
      List.map_replicate] at hl
    exact (List.mem_replicate.1 hl).2

end Microcode
