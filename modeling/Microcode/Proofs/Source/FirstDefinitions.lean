import Microcode.Proofs.Source.Causality
import Microcode.Proofs.Source.Definitions

/-!
# The first definition wins

The macros behind some lines are those that the lines define first (`Preprocess.firstTable_tableAfter`), by induction on
the lines: a line adds a macro exactly if it is well formed and none of the lines before it defines the name.
-/

namespace Microcode

open Text

/-! ## First definitions -/

/-- Line `i`, counted from zero, is the first one that defines the name, and it gives it the value. -/
structure FirstDefines (ls : List Text) (i : Nat) (name value : Text) : Prop where
  defines : ∃ l, ls[i]? = some l ∧ Defines l name value
  first : ∀ j < i, ∀ l, ls[j]? = some l → ∀ other, ¬ Defines l name other

namespace FirstDefines

variable {ls : List Text} {i j : Nat} {name value value' : Text}

/-- A name is defined first on one line. -/
theorem index_eq (h : FirstDefines ls i name value) (h' : FirstDefines ls j name value') : i = j := by
  obtain ⟨l, hl, hdefines⟩ := h.defines
  obtain ⟨l', hl', hdefines'⟩ := h'.defines
  rcases Nat.lt_trichotomy i j with hlt | heq | hlt
  · exact absurd hdefines (h'.first i hlt l hl value)
  · exact heq
  · exact absurd hdefines' (h.first j hlt l' hl' value')

/-- A name that is defined has a first definition. -/
theorem exists_le {l : Text} (hl : ls[i]? = some l) (hdefines : Defines l name value) :
    ∃ j ≤ i, ∃ value', FirstDefines ls j name value' := by
  induction i using Nat.strong_induction_on generalizing l value with
  | _ i ih =>
    by_cases hearlier : ∃ j < i, ∃ l, ls[j]? = some l ∧ ∃ other, Defines l name other
    · obtain ⟨j, hj, l', hl', other, hother⟩ := hearlier
      obtain ⟨k, hk, value', hfirst⟩ := ih j hj hl' hother
      exact ⟨k, by omega, value', hfirst⟩
    · refine ⟨i, Nat.le_refl i, value, ⟨l, hl, hdefines⟩, fun j hj l' hl' other hother => ?_⟩
      exact hearlier ⟨j, hj, l', hl', other, hother⟩

end FirstDefines

/-- The diagnostics about a line, an open comment apart. -/
def Preprocessed.errorsAt (p : Preprocessed) (n : Nat) : List Diagnostic :=
  p.errors.filter fun d => d.line == (n : Int) && !d.isUnterminated

/-! ## What a line does to the macros -/

namespace Preprocess

section Line

variable {t : MacroTable} {s name value : Text} (n : Nat)

theorem trim_content (s : Text) : (content s).trim = content s :=
  trim_trim _

theorem line_of_isDefinition (t : MacroTable) (h : IsDefinition (content s)) :
    line t n s = define t n (content s) := by
  rw [line, if_pos (isDefine_iff.2 h)]

theorem defined_of_not_isDefinition (t : MacroTable) (h : ¬ IsDefinition (content s)) :
    (line t n s).defined = none := by
  unfold line
  dsimp only
  rw [if_neg (mt isDefine_iff.1 h)]
  split <;> rfl

/-- A malformed definition is reported and defines nothing. -/
theorem line_of_malformed (t : MacroTable) (h : IsDefinition (content s))
    (hmalformed : ∀ name value, ¬ Defines (content s) name value) :
    (line t n s).defined = none ∧ (line t n s).problem = some (.malformedDefine (content s)) := by
  have hparse : parseDefine (content s) = none := by
    rw [Option.eq_none_iff_forall_ne_some]
    rintro ⟨name, value⟩ hparse
    exact hmalformed name value ((defines_iff (trim_content s)).2 ⟨h, hparse⟩)
  rw [line_of_isDefinition n t h, define, hparse]
  exact ⟨rfl, rfl⟩

theorem line_of_defines (t : MacroTable) (h : Defines (content s) name value) :
    line t n s =
      match t.find name with
      | some m => ⟨ascii "// " ++ content s, none, some (.redefinition name m.line)⟩
      | none => ⟨ascii "// " ++ content s, some ⟨name, value, n⟩, none⟩ := by
  have hline := line_of_isDefinition n t h.isDefinition
  rw [define, h.parseDefine_eq] at hline
  exact hline

/-- A second definition is reported with the line of the first, and defines nothing. -/
theorem line_of_redefinition {m : Macro} (h : Defines (content s) name value) (hfind : t.find name = some m) :
    (line t n s).defined = none ∧ (line t n s).problem = some (.redefinition name m.line) := by
  rw [line_of_defines n t h, hfind]
  exact ⟨rfl, rfl⟩

/-- A first definition is kept with its line. -/
theorem line_of_first (h : Defines (content s) name value) (hfind : t.find name = none) :
    (line t n s).defined = some ⟨name, value, n⟩ ∧ (line t n s).problem = none := by
  rw [line_of_defines n t h, hfind]
  exact ⟨rfl, rfl⟩

end Line

/-! ## The macros behind some lines -/

/-- The lines of a source as they count: without comments and without the blanks around them. -/
def contents (source : Text) : List Text :=
  (Comment.strip source).text.lines.map content

/-- The macros that the first `k` lines define. -/
def tableAfter (source : Text) (k : Nat) : MacroTable :=
  ((results source).take k).filterMap (·.defined)

/-- A line is handled with the macros that the lines before it define. -/
theorem getElem?_linesFrom (t : MacroTable) (n i : Nat) (ss : List Text) :
    (linesFrom t n ss)[i]? =
      ss[i]?.map (line (t ++ ((linesFrom t n ss).take i).filterMap (·.defined)) (n + i)) := by
  induction ss generalizing t n i with
  | nil => rfl
  | cons s ss ih =>
    cases i with
    | zero =>
      rw [List.take_zero, List.filterMap_nil, List.append_nil]
      rfl
    | succ i =>
      have htable : (line t n s).defined.toList ++
          ((linesFrom (t ++ (line t n s).defined.toList) (n + 1) ss).take i).filterMap (·.defined) =
          ((linesFrom t n (s :: ss)).take (i + 1)).filterMap (·.defined) := by
        rw [linesFrom, List.take_succ_cons, List.filterMap_cons]
        cases (line t n s).defined <;> rfl
      rw [← htable, ← List.append_assoc, linesFrom, List.getElem?_cons_succ, List.getElem?_cons_succ, ih,
        Nat.add_right_comm, Nat.add_assoc]

/-- Each line is taken with the macros that the lines before it define. -/
theorem getElem?_results (source : Text) (i : Nat) :
    (results source)[i]? = (Comment.strip source).text.lines[i]?.map (line (tableAfter source i) (i + 1)) := by
  rw [results, getElem?_linesFrom, List.nil_append, Nat.add_comm 1 i]
  rfl

theorem tableAfter_succ (source : Text) (k : Nat) :
    tableAfter source (k + 1) = tableAfter source k ++ ((results source)[k]?.bind (·.defined)).toList := by
  unfold tableAfter
  rw [List.take_add_one, List.filterMap_append]
  cases (results source)[k]? with
  | none => rfl
  | some r =>
    show _ ++ [r].filterMap (·.defined) = _ ++ r.defined.toList
    rw [List.filterMap_cons, List.filterMap_nil]
    cases r.defined <;> rfl

theorem exists_of_getElem?_contents {source l : Text} {i : Nat} (h : (contents source)[i]? = some l) :
    ∃ s, content s = l ∧ (results source)[i]? = some (line (tableAfter source i) (i + 1) s) := by
  rw [contents, List.getElem?_map] at h
  obtain ⟨s, hs, rfl⟩ := Option.map_eq_some_iff.1 h
  refine ⟨s, rfl, ?_⟩
  rw [getElem?_results, hs]
  rfl

/-- A table has the macros that the first `k` lines define first. -/
def FirstTable (ls : List Text) (k : Nat) (t : MacroTable) : Prop :=
  ∀ m : Macro, m ∈ t ↔ ∃ i < k, m.line = i + 1 ∧ FirstDefines ls i m.name m.value

namespace FirstTable

variable {ls : List Text} {k : Nat} {t : MacroTable} {name value : Text}

/-- A name is found with its first definition. -/
theorem find_eq_some (h : FirstTable ls k t) {i : Nat} (hi : i < k) (hfirst : FirstDefines ls i name value) :
    t.find name = some ⟨name, value, i + 1⟩ := by
  have hmem : (⟨name, value, i + 1⟩ : Macro) ∈ t := (h _).2 ⟨i, hi, rfl, hfirst⟩
  cases hfind : t.find name with
  | none => exact absurd (beq_self_eq_true name) (List.find?_eq_none.1 hfind _ hmem)
  | some m =>
    obtain ⟨name', value', line⟩ := m
    obtain rfl : name' = name := by simpa using List.find?_some hfind
    obtain ⟨j, -, hline, hfirst'⟩ := (h _).1 (List.mem_of_find?_eq_some hfind)
    -- both are the first definition of the name
    obtain rfl := hfirst.index_eq hfirst'
    obtain ⟨l, hl, hdefines⟩ := hfirst.defines
    obtain ⟨l', hl', hdefines'⟩ := hfirst'.defines
    obtain rfl := Option.some.inj (hl.symm.trans hl')
    obtain rfl : value = value' := (hdefines.unique hdefines').2
    obtain rfl : line = i + 1 := hline
    rfl

/-- A name that no line has defined so far is not found. -/
theorem find_eq_none (h : FirstTable ls k t)
    (hnot : ∀ j < k, ∀ l, ls[j]? = some l → ∀ other, ¬ Defines l name other) : t.find name = none := by
  refine List.find?_eq_none.2 fun m hm hname => ?_
  obtain ⟨i, hi, -, hfirst⟩ := (h m).1 hm
  obtain ⟨l, hl, hdefines⟩ := hfirst.defines
  rw [eq_of_beq hname] at hdefines
  exact hnot i hi l hl _ hdefines

end FirstTable

/-- What can happen at a line that is to define something. -/
inductive DefinitionOutcome (ls : List Text) (i : Nat) (l : Text) : (defined : Option Macro) →
    (problem : Option SourceProblem) → Prop
  /-- It is the first definition of a name. -/
  | first {name value : Text} (h : FirstDefines ls i name value) :
    DefinitionOutcome ls i l (some ⟨name, value, i + 1⟩) none
  /-- It is not well formed. -/
  | malformed (h : ∀ name value, ¬ Defines l name value) :
    DefinitionOutcome ls i l none (some (.malformedDefine l))
  /-- It defines a name again. -/
  | again {name value old : Text} {j : Nat} (h : Defines l name value) (hlt : j < i)
      (hfirst : FirstDefines ls j name old) :
    DefinitionOutcome ls i l none (some (.redefinition name (j + 1)))

/-- A line that is to define something, taken with the macros that the lines before it define first. -/
theorem definitionOutcome_line {ls : List Text} {i : Nat} {t : MacroTable} {s : Text} (ht : FirstTable ls i t)
    (hs : ls[i]? = some (content s)) (h : IsDefinition (content s)) :
    DefinitionOutcome ls i (content s) (line t (i + 1) s).defined (line t (i + 1) s).problem := by
  by_cases hdefines : ∃ name value, Defines (content s) name value
  · obtain ⟨name, value, hdefines⟩ := hdefines
    obtain ⟨j, hj, old, hfirst⟩ := FirstDefines.exists_le hs hdefines
    rcases Nat.lt_or_eq_of_le hj with hlt | rfl
    · obtain ⟨hdefined, hproblem⟩ := line_of_redefinition (i + 1) hdefines (ht.find_eq_some hlt hfirst)
      rw [hdefined, hproblem]
      exact .again hdefines hlt hfirst
    · obtain ⟨hdefined, hproblem⟩ := line_of_first (j + 1) hdefines (ht.find_eq_none hfirst.first)
      rw [hdefined, hproblem]
      exact .first ⟨⟨_, hs, hdefines⟩, hfirst.first⟩
  · have hmalformed : ∀ name value, ¬ Defines (content s) name value :=
      fun name value hdefines' => hdefines ⟨name, value, hdefines'⟩
    obtain ⟨hdefined, hproblem⟩ := line_of_malformed (i + 1) t h hmalformed
    rw [hdefined, hproblem]
    exact .malformed hmalformed

/-- A line adds the macro that it defines first, if there is one. -/
theorem defined_eq_some_iff {source : Text} {k : Nat} (ht : FirstTable (contents source) k (tableAfter source k))
    (m : Macro) :
    (results source)[k]?.bind (·.defined) = some m ↔
      m.line = k + 1 ∧ FirstDefines (contents source) k m.name m.value := by
  constructor
  · intro h
    obtain ⟨r, hr, hdefined⟩ := Option.bind_eq_some_iff.1 h
    have hline := hr
    rw [getElem?_results] at hline
    obtain ⟨s, hs, rfl⟩ := Option.map_eq_some_iff.1 hline
    have hl : (contents source)[k]? = some (content s) := by
      rw [contents, List.getElem?_map, hs]
      rfl
    by_cases hdefinition : IsDefinition (content s)
    · have houtcome := definitionOutcome_line ht hl hdefinition
      rw [hdefined] at houtcome
      generalize (line (tableAfter source k) (k + 1) s).problem = problem at houtcome
      cases houtcome with
      | first hfirst => exact ⟨rfl, hfirst⟩
    · rw [defined_of_not_isDefinition (k + 1) _ hdefinition] at hdefined
      cases hdefined
  · rintro ⟨hline, hfirst⟩
    obtain ⟨l, hl, hdefines⟩ := hfirst.defines
    obtain ⟨s, rfl, hr⟩ := exists_of_getElem?_contents hl
    rw [hr, Option.bind_some, (line_of_first (k + 1) hdefines (ht.find_eq_none hfirst.first)).1, ← hline]

/-- **The macros behind some lines are those that the lines define first.** -/
theorem firstTable_tableAfter (source : Text) (k : Nat) : FirstTable (contents source) k (tableAfter source k) := by
  induction k with
  | zero =>
    intro m
    refine iff_of_false List.not_mem_nil ?_
    rintro ⟨i, hi, -⟩
    exact absurd hi (Nat.not_lt_zero i)
  | succ k ih =>
    intro m
    rw [tableAfter_succ, List.mem_append, ih m, Option.mem_toList, defined_eq_some_iff ih]
    constructor
    · rintro (⟨i, hi, h⟩ | h)
      · exact ⟨i, Nat.lt_succ_of_lt hi, h⟩
      · exact ⟨k, Nat.lt_succ_self k, h⟩
    · rintro ⟨i, hi, h⟩
      rcases Nat.lt_succ_iff_lt_or_eq.1 hi with hlt | rfl
      · exact .inl ⟨i, hlt, h⟩
      · exact .inr h

theorem length_contents (source : Text) : (contents source).length = (results source).length := by
  rw [contents, List.length_map, results, length_linesFrom]

theorem macros_eq_tableAfter (source : Text) :
    (preprocess source).macros = tableAfter source (contents source).length := by
  rw [tableAfter, length_contents, List.take_length]
  rfl

/-- The macros are the first definitions. -/
theorem mem_macros_iff (source : Text) (m : Macro) :
    m ∈ (preprocess source).macros ↔ ∃ i, m.line = i + 1 ∧ FirstDefines (contents source) i m.name m.value := by
  rw [macros_eq_tableAfter, firstTable_tableAfter]
  constructor
  · rintro ⟨i, -, h⟩
    exact ⟨i, h⟩
  · rintro ⟨i, hline, hfirst⟩
    obtain ⟨l, hl, -⟩ := hfirst.defines
    exact ⟨i, (List.getElem?_eq_some_iff.1 hl).1, hline, hfirst⟩

/-- The macros have the names that are defined somewhere. -/
theorem mem_names_iff (source name : Text) :
    name ∈ (preprocess source).macros.map (·.name) ↔ ∃ l ∈ contents source, ∃ value, Defines l name value := by
  rw [List.mem_map]
  constructor
  · rintro ⟨m, hm, rfl⟩
    obtain ⟨i, -, hfirst⟩ := (mem_macros_iff source m).1 hm
    obtain ⟨l, hl, hdefines⟩ := hfirst.defines
    exact ⟨l, List.mem_of_getElem? hl, m.value, hdefines⟩
  · rintro ⟨l, hl, value, hdefines⟩
    obtain ⟨i, hi⟩ := List.mem_iff_getElem?.1 hl
    obtain ⟨j, -, old, hfirst⟩ := FirstDefines.exists_le hi hdefines
    exact ⟨⟨name, old, j + 1⟩, (mem_macros_iff source _).2 ⟨j, rfl, hfirst⟩, rfl⟩

/-- No two macros have one name. -/
theorem nodup_names (source : Text) (k : Nat) : ((tableAfter source k).map (·.name)).Nodup := by
  induction k with
  | zero => exact List.nodup_nil
  | succ k ih =>
    rw [tableAfter_succ, List.map_append]
    cases hdefined : (results source)[k]?.bind (·.defined) with
    | none => rwa [Option.toList_none, List.map_nil, List.append_nil]
    | some m =>
      have hfirst := ((defined_eq_some_iff (firstTable_tableAfter source k) m).1 hdefined).2
      have hnone := (firstTable_tableAfter source k).find_eq_none hfirst.first
      refine List.nodup_append.2 ⟨ih, List.pairwise_singleton _ _, fun name hname other hother heq => ?_⟩
      obtain ⟨m', hm', rfl⟩ := List.mem_map.1 hname
      rw [List.mem_singleton.1 hother] at heq
      exact List.find?_eq_none.1 hnone m' hm' (beq_iff_eq.2 heq)

/-! ## Diagnostics -/

theorem filter_diagnosticsFrom_eq (n i : Nat) (rs : List LineResult) :
    (diagnosticsFrom n rs).filter (fun d : Diagnostic => d.line == ((n + i : Nat) : Int)) =
      (rs[i]?.bind (·.problem)).toList.map fun p => ⟨((n + i : Nat) : Int), p.message⟩ := by
  induction rs generalizing n i with
  | nil => rfl
  | cons r rs ih =>
    rw [diagnosticsFrom_cons, List.filter_append]
    cases i with
    | zero =>
      -- later results have larger line numbers
      have hrest : (diagnosticsFrom (n + 1) rs).filter (fun d : Diagnostic => d.line == ((n + 0 : Nat) : Int)) = [] := by
        refine List.filter_eq_nil_iff.2 fun d hd heq => ?_
        have hle := (exists_of_mem_diagnosticsFrom hd).1
        have hline := eq_of_beq heq
        omega
      rw [hrest, List.append_nil]
      cases hproblem : r.problem <;> simp [hproblem]
    | succ i =>
      have hindex : n + (i + 1) = n + 1 + i := by omega
      have hfirst : (r.problem.toList.map fun p => (⟨n, p.message⟩ : Diagnostic)).filter
          (fun d : Diagnostic => d.line == ((n + 1 + i : Nat) : Int)) = [] := by
        refine List.filter_eq_nil_iff.2 fun d hd heq => ?_
        obtain ⟨p, -, rfl⟩ := List.mem_map.1 hd
        have hline := eq_of_beq heq
        dsimp only at hline
        omega
      rw [hindex, hfirst, List.nil_append, ih, List.getElem?_cons_succ]

/-- The diagnostic of a line is that of its problem. -/
theorem errorsAt_preprocess (source : Text) (i : Nat) :
    (preprocess source).errorsAt (i + 1) =
      ((results source)[i]?.bind (·.problem)).toList.map fun p => ⟨((i + 1 : Nat) : Int), p.message⟩ := by
  rw [Nat.add_comm i 1, ← filter_diagnosticsFrom_eq, ← filter_errors]
  rfl

/-! ## Sources -/

/-- What the definitions of a source lead to. -/
structure FirstWins (source : Text) : Prop where
  /-- A macro is the first definition of its name, with its value and its line. -/
  mem_macros_iff : ∀ m : Macro, m ∈ (preprocess source).macros ↔
    ∃ i, m.line = i + 1 ∧ FirstDefines (contents source) i m.name m.value
  /-- The names are those that are defined somewhere. -/
  mem_names_iff : ∀ name, name ∈ (preprocess source).macros.map (·.name) ↔
    ∃ l ∈ contents source, ∃ value, Defines l name value
  nodup_names : ((preprocess source).macros.map (·.name)).Nodup
  /-- The macros are those behind the last line. -/
  macros_eq : (preprocess source).macros = tableAfter source (contents source).length
  /-- A line that is to define something adds either a macro or a diagnostic. -/
  definition : ∀ i l, (contents source)[i]? = some l → IsDefinition l →
    ∃ defined problem, DefinitionOutcome (contents source) i l defined problem ∧
      tableAfter source (i + 1) = tableAfter source i ++ defined.toList ∧
      (preprocess source).errorsAt (i + 1) = problem.toList.map fun p => ⟨((i + 1 : Nat) : Int), p.message⟩
  /-- No other line adds a macro. -/
  no_definition : ∀ i l, (contents source)[i]? = some l → ¬ IsDefinition l →
    tableAfter source (i + 1) = tableAfter source i
  isName : ∀ m ∈ (preprocess source).macros, IsName m.name
  isValue : ∀ m ∈ (preprocess source).macros, IsValue m.value

end Preprocess

/-- **The first definition wins.** The macros of a source are the first well-formed definitions of their names, with
their values and lines. Any other line that is to define something adds one diagnostic and no macro: it is malformed,
or it names the line on which its name was defined first. The names are words that do not start with a digit, and the
values are trimmed and go neither over the end of a line nor into a comment. -/
theorem first_definition_wins (source : Text) : Preprocess.FirstWins source where
  mem_macros_iff := Preprocess.mem_macros_iff source
  mem_names_iff := Preprocess.mem_names_iff source
  nodup_names := by
    rw [Preprocess.macros_eq_tableAfter]
    exact Preprocess.nodup_names source _
  macros_eq := Preprocess.macros_eq_tableAfter source
  definition i l hl h := by
    obtain ⟨s, rfl, hr⟩ := Preprocess.exists_of_getElem?_contents hl
    refine ⟨_, _, Preprocess.definitionOutcome_line (Preprocess.firstTable_tableAfter source i) hl h, ?_, ?_⟩
    · rw [Preprocess.tableAfter_succ, hr]
      rfl
    · rw [Preprocess.errorsAt_preprocess, hr]
      rfl
  no_definition i l hl h := by
    obtain ⟨s, rfl, hr⟩ := Preprocess.exists_of_getElem?_contents hl
    rw [Preprocess.tableAfter_succ, hr, Option.bind_some, Preprocess.defined_of_not_isDefinition _ _ h]
    exact List.append_nil _
  isName m hm := by
    obtain ⟨i, -, hfirst⟩ := (Preprocess.mem_macros_iff source m).1 hm
    obtain ⟨l, -, gaps, gap, run, -, -, -, hname, -⟩ := hfirst.defines
    exact hname
  isValue m hm := by
    obtain ⟨i, -, hfirst⟩ := (Preprocess.mem_macros_iff source m).1 hm
    obtain ⟨l, hl, hdefines⟩ := hfirst.defines
    obtain ⟨s, hs, rfl⟩ := List.mem_map.1 (List.mem_of_getElem? hl)
    exact Preprocess.isValue_of_defines (newline_not_mem_of_mem_lines hs) hdefines

end Microcode
