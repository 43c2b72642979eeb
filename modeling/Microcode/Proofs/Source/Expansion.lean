import Mathlib.Data.ENat.Lattice
import Mathlib.Data.Finset.Lattice.Fold
import Mathlib.Data.List.TakeWhile
import Mathlib.Logic.Relation
import Mathlib.Order.CompletePartialOrder
import Microcode.Proofs.Source.Fidelity

/-!
# How far macros expand

A replacement works on the words of a line one by one: the value of a macro stands between the bytes that the
name stood between, and none of these belongs to a word, so it never grows together with the text around it
(`MacroTable.words_substitute`). Hence each word of a line has a depth of its own, the number of rounds until
nothing in it changes, and the rounds that a line needs are the greatest depth of its words.

* `MacroTable.depth_eq` is the recursion of the depth along the values of macros;
* `MacroTable.depth_eq_top_of_cycle` says that it is infinite on a cycle;
* `MacroTable.lineDepth_eq_add_one` says that a round takes off one level;
* `MacroTable.expandFor_eq_iff` says when the rounds suffice, and what they give then.
-/

namespace Microcode

open Text

/-! ## Words -/

namespace Text

/-- The maximal runs of word bytes in a text. -/
def words (s : Text) : List Text :=
  (s.splitOnP fun b => !isWord b).filter fun w => !w.isEmpty

/-- No word goes across another byte. -/
theorem words_append_cons {b : UInt8} (hb : isWord b = false) (s t : Text) :
    words (s ++ b :: t) = s.words ++ t.words := by
  unfold words
  rw [List.splitOnP_append_cons s t (by simp [hb]), List.filter_append]

/-- A text of bytes of words is a single word. -/
theorem words_of_forall_isWord {w : Text} (hne : w ≠ []) (hw : ∀ b ∈ w, isWord b = true) : w.words = [w] := by
  unfold words
  rw [List.splitOnP_eq_singleton fun b hb => by simp [hw b hb]]
  simp [hne]

/-- Words are not empty, and have bytes of words only. -/
theorem isWord_of_mem_words {s w : Text} (h : w ∈ s.words) : w ≠ [] ∧ ∀ b ∈ w, isWord b = true := by
  obtain ⟨hsplit, hne⟩ := List.mem_filter.1 h
  refine ⟨by simpa using hne, fun b hb => ?_⟩
  simpa using eq_false_of_mem_splitOnP hsplit b hb

/-- A text is a run of word bytes, or such a run, another byte, and a text. -/
theorem word_induction {P : Text → Prop} (run : ∀ w, (∀ b ∈ w, isWord b = true) → P w)
    (step : ∀ w b s, (∀ c ∈ w, isWord c = true) → isWord b = false → P s → P (w ++ b :: s)) (s : Text) : P s := by
  -- a text is a run of bytes of words, alone or before another byte; the induction is on its length
  obtain ⟨n, hn⟩ : ∃ n, s.length = n := ⟨_, rfl⟩
  induction n using Nat.strong_induction_on generalizing s with
  | _ n ih =>
    have hrun : ∀ b ∈ s.takeWhile isWord, isWord b = true := fun b => List.mem_takeWhile_imp
    have hsplit : s.takeWhile isWord ++ s.dropWhile isWord = s := List.takeWhile_append_dropWhile
    cases hrest : s.dropWhile isWord with
    | nil =>
      rw [hrest, List.append_nil] at hsplit
      rw [← hsplit]
      exact run _ hrun
    | cons b rest =>
      have hb : isWord b = false := by
        have h := List.head?_dropWhile_not isWord s
        rw [hrest] at h
        simpa using h
      rw [hrest] at hsplit
      have hlength : rest.length < n := by
        rw [← hn, ← hsplit, List.length_append, List.length_cons]
        omega
      rw [← hsplit]
      exact step _ b rest hrun hb (ih rest.length hlength rest rfl)

end Text

/-! ## One round -/

namespace Piece

/-- Pieces end at a byte that belongs to no word. -/
theorem ofText_append_cons {b : UInt8} (hb : isWord b = false) (s t : Text) :
    ofText (s ++ b :: t) = ofText s ++ .other b :: ofText t := by
  induction s with
  | nil =>
    show push b (ofText t) = _
    unfold push
    rw [hb]
    rfl
  | cons c s ih =>
    show push c (ofText (s ++ b :: t)) = push c (ofText s) ++ _
    rw [ih]
    unfold push
    split
    · cases ofText s with
      | nil => rfl
      | cons piece ps => cases piece <;> rfl
    · rfl

theorem ofText_of_forall_isWord {w : Text} (hne : w ≠ []) (hw : ∀ b ∈ w, isWord b = true) :
    ofText w = [.word w] := by
  induction w with
  | nil => exact absurd rfl hne
  | cons b w ih =>
    obtain ⟨hb, hw⟩ := List.forall_mem_cons.1 hw
    show push b (ofText w) = _
    unfold push
    rw [if_pos hb]
    cases w with
    | nil => rfl
    | cons c w =>
      rw [ih (List.cons_ne_nil c w) hw]

end Piece

namespace MacroTable

variable (t : MacroTable)

/-- Substitution goes on from one byte that is not of a word to the next. -/
theorem substitute_append_cons {b : UInt8} (hb : isWord b = false) (s r : Text) :
    t.substitute (s ++ b :: r) = t.substitute s ++ b :: t.substitute r := by
  unfold substitute
  rw [Piece.ofText_append_cons hb, List.flatMap_append, List.flatMap_cons]
  rfl

/-- A single word is replaced by its value, if it has one. -/
theorem substitute_word {w : Text} (hne : w ≠ []) (hw : ∀ b ∈ w, isWord b = true) :
    t.substitute w = t.expandWord w := by
  unfold substitute
  rw [Piece.ofText_of_forall_isWord hne hw, List.flatMap_singleton]
  rfl

/-- The words of a line after a round are those that stand for its words. -/
theorem words_substitute (line : Text) :
    (t.substitute line).words = line.words.flatMap fun w => (t.expandWord w).words := by
  have hrun : ∀ w, (∀ b ∈ w, isWord b = true) →
      (t.substitute w).words = w.words.flatMap fun w => (t.expandWord w).words := by
    intro w hw
    by_cases hne : w = []
    · rw [hne]
      rfl
    · rw [t.substitute_word hne hw, words_of_forall_isWord hne hw, List.flatMap_singleton]
  induction line using word_induction with
  | run w hw => exact hrun w hw
  | step w b s hw hb ih =>
    -- the byte between the words is still between what stands for them
    rw [t.substitute_append_cons hb, words_append_cons hb, words_append_cons hb, List.flatMap_append,
      hrun w hw, ih]

theorem changes_append_cons {b : UInt8} (hb : isWord b = false) (s r : Text) :
    t.changes (s ++ b :: r) = (t.changes s || t.changes r) := by
  unfold changes
  rw [Piece.ofText_append_cons hb, List.any_append, List.any_cons]
  simp [expandPiece, Piece.text]

/-- A round changes a line exactly if it changes one of its words. -/
theorem changes_eq_any (line : Text) : t.changes line = line.words.any fun w => t.expandWord w != w := by
  have hrun : ∀ w, (∀ b ∈ w, isWord b = true) →
      t.changes w = w.words.any fun w => t.expandWord w != w := by
    intro w hw
    by_cases hne : w = []
    · rw [hne]
      rfl
    · rw [changes, Piece.ofText_of_forall_isWord hne hw, words_of_forall_isWord hne hw]
      rfl
  induction line using word_induction with
  | run w hw => exact hrun w hw
  | step w b s hw hb ih =>
    rw [t.changes_append_cons hb, words_append_cons hb, List.any_append, hrun w hw, ih]

/-! ## Depth -/

/-- The depth of a word as far as `n` levels show: a word that is replaced by something else is one level above
the words of its value. -/
def depthWithin : Nat → Text → Nat
  | 0, _ => 0
  | n + 1, w =>
    match t.find w with
    | none => 0
    | some m => if m.value = w then 0 else 1 + m.value.words.toFinset.sup (depthWithin n)

/-- The depth of a word. -/
noncomputable def depth (w : Text) : ℕ∞ :=
  ⨆ n, (t.depthWithin n w : ℕ∞)

/-- The greatest depth of the words of a line. -/
noncomputable def lineDepth (line : Text) : ℕ∞ :=
  ⨆ w ∈ line.words, t.depth w

/-- A word that is replaced by something else uses the words of its value. -/
def Uses (w v : Text) : Prop :=
  ∃ m, t.find w = some m ∧ m.value ≠ w ∧ v ∈ m.value.words

variable {t}

theorem depth_le_iff {w : Text} {k : ℕ} : t.depth w ≤ k ↔ ∀ n, t.depthWithin n w ≤ k := by
  simp only [depth, iSup_le_iff, Nat.cast_le]

theorem lineDepth_le_iff {line : Text} {k : ℕ} : t.lineDepth line ≤ k ↔ ∀ w ∈ line.words, t.depth w ≤ k :=
  iSup₂_le_iff

theorem expandWord_eq_of_find {w : Text} {m : Macro} (h : t.find w = some m) : t.expandWord w = m.value := by
  rw [expandWord, h]

/-- A word that stands for itself has depth zero. -/
theorem depth_eq_zero_of_expandWord {w : Text} (h : t.expandWord w = w) : t.depth w = 0 := by
  refine le_antisymm (depth_le_iff.2 fun n => ?_) bot_le
  cases n with
  | zero => exact Nat.le_refl 0
  | succ n =>
    rw [depthWithin]
    split
    · exact Nat.le_refl 0
    · next m hfind =>
      rw [expandWord_eq_of_find hfind] at h
      rw [if_pos h]

/-- A word that is replaced is at most one level above the words of its value. -/
theorem depth_le_succ_iff {w : Text} {m : Macro} (hfind : t.find w = some m) (hne : m.value ≠ w) (k : ℕ) :
    t.depth w ≤ k + 1 ↔ ∀ v ∈ m.value.words, t.depth v ≤ k := by
  have hsucc : ∀ n, t.depthWithin (n + 1) w = 1 + m.value.words.toFinset.sup (t.depthWithin n) := by
    intro n
    rw [depthWithin, hfind]
    exact if_neg hne
  -- one more level for the word is one more for each word of its value
  have hsup : ∀ n, t.depthWithin (n + 1) w ≤ k + 1 ↔ ∀ v ∈ m.value.words, t.depthWithin n v ≤ k := by
    intro n
    rw [hsucc, Nat.add_comm, Nat.add_le_add_iff_right, Finset.sup_le_iff]
    simp only [List.mem_toFinset]
  rw [← Nat.cast_one, ← Nat.cast_add, depth_le_iff]
  simp only [depth_le_iff]
  constructor
  · intro h v hv n
    exact (hsup n).1 (h (n + 1)) v hv
  · intro h n
    cases n with
    | zero => exact Nat.zero_le _
    | succ n => exact (hsup n).2 fun v hv => h v hv n

/-- A number that is not zero is one more than another one if their bounds are. -/
theorem eq_add_one_of_le_iff {a b : ℕ∞} (ha : a ≠ 0) (h : ∀ k : ℕ, a ≤ k + 1 ↔ b ≤ k) : a = b + 1 := by
  induction b using ENat.recTopCoe with
  | top =>
    induction a using ENat.recTopCoe with
    | top => rfl
    | coe n =>
      have hle : (n : ℕ∞) ≤ n + 1 := le_self_add
      exact absurd ((h n).1 hle) (by simp)
  | coe n =>
    refine le_antisymm ((h n).2 le_rfl) ?_
    cases n with
    | zero => simpa [Order.one_le_iff_ne_zero] using ha
    | succ n =>
      -- otherwise the bound of the other one would be too small
      by_contra hlt
      have hle : a ≤ n + 1 := by
        rw [not_le] at hlt
        exact ENat.lt_natCast_add_one_iff.1 (by exact_mod_cast hlt)
      have hb := (h n).1 hle
      norm_cast at hb
      omega

/-- A word that is replaced is one level above the words of its value. -/
theorem depth_eq_add_one {w : Text} {m : Macro} (hfind : t.find w = some m) (hne : m.value ≠ w) :
    t.depth w = (⨆ v ∈ m.value.words, t.depth v) + 1 := by
  refine eq_add_one_of_le_iff ?_ fun k => ?_
  · intro hzero
    have hle : t.depthWithin 1 w ≤ 0 := depth_le_iff.1 hzero.le 1
    rw [depthWithin, hfind] at hle
    dsimp only at hle
    rw [if_neg hne] at hle
    omega
  · rw [depth_le_succ_iff hfind hne, iSup₂_le_iff]

/-- **The recursion of the depth.** A word that names no macro, or one whose value is the name, has depth zero.
Any other name is one level above the deepest word of its value. -/
theorem depth_eq (t : MacroTable) (w : Text) :
    t.depth w =
      match t.find w with
      | none => 0
      | some m => if m.value = w then 0 else 1 + ⨆ v ∈ m.value.words, t.depth v := by
  cases hfind : t.find w with
  | none => exact depth_eq_zero_of_expandWord (by rw [expandWord, hfind])
  | some m =>
    dsimp only
    split
    · next hvalue => exact depth_eq_zero_of_expandWord (by rw [expandWord_eq_of_find hfind, hvalue])
    · next hvalue => rw [depth_eq_add_one hfind hvalue, add_comm]

/-- A word has no depth if it stays as it is. -/
theorem depth_eq_zero_iff {w : Text} : t.depth w = 0 ↔ t.expandWord w = w := by
  refine ⟨fun hzero => ?_, depth_eq_zero_of_expandWord⟩
  rw [depth_eq] at hzero
  unfold expandWord
  cases hfind : t.find w with
  | none => rfl
  | some m =>
    rw [hfind] at hzero
    dsimp only at hzero ⊢
    by_contra hvalue
    rw [if_neg hvalue] at hzero
    exact absurd hzero (by simp)

/-- A word is above those that it uses. -/
theorem Uses.depth_add_one_le {w v : Text} (h : t.Uses w v) : t.depth v + 1 ≤ t.depth w := by
  obtain ⟨m, hfind, hne, hv⟩ := h
  rw [depth_eq_add_one hfind hne]
  gcongr
  exact le_iSup₂_of_le v hv le_rfl

/-- A word that is reached has less depth. -/
theorem depth_add_one_le_of_transGen {w v : Text} (h : Relation.TransGen t.Uses w v) :
    t.depth v + 1 ≤ t.depth w := by
  induction h with
  | single huses => exact huses.depth_add_one_le
  | tail _ huses ih => exact (huses.depth_add_one_le.trans le_self_add).trans ih

/-- The depth of a word that comes to itself again is infinite. -/
theorem depth_eq_top_of_cycle {w : Text} (h : Relation.TransGen t.Uses w w) : t.depth w = ⊤ := by
  have hle := depth_add_one_le_of_transGen h
  by_contra hne
  exact absurd hle (not_le.2 (ENat.lt_add_one_iff hne |>.2 le_rfl))

/-- A word that reaches a cycle is infinitely deep. -/
theorem depth_eq_top_of_reaches {w v : Text} (h : Relation.ReflTransGen t.Uses w v)
    (hcycle : Relation.TransGen t.Uses v v) : t.depth w = ⊤ := by
  induction h using Relation.ReflTransGen.head_induction_on with
  | refl => exact depth_eq_top_of_cycle hcycle
  | head huses _ ih =>
    have hle := huses.depth_add_one_le
    rw [ih, top_add] at hle
    exact top_le_iff.1 hle

/-! ## Rounds -/

/-- What stands for a word is a level below it, if it is not the word itself. -/
theorem depth_expandWord_le_iff {w : Text} (hne : w ≠ []) (hw : ∀ b ∈ w, isWord b = true) (k : ℕ) :
    (∀ v ∈ (t.expandWord w).words, t.depth v ≤ k) ↔ t.depth w ≤ k + 1 := by
  by_cases hself : t.expandWord w = w
  · rw [hself, words_of_forall_isWord hne hw, List.forall_mem_singleton, depth_eq_zero_of_expandWord hself]
    simp
  · cases hfind : t.find w with
    | none => exact absurd (by rw [expandWord, hfind]) hself
    | some m =>
      rw [expandWord_eq_of_find hfind] at hself ⊢
      exact (depth_le_succ_iff hfind hself k).symm

/-- A round of substitution takes one off the depth. -/
theorem lineDepth_substitute_le_iff {line : Text} (k : ℕ) :
    t.lineDepth (t.substitute line) ≤ k ↔ t.lineDepth line ≤ k + 1 := by
  rw [lineDepth_le_iff, words_substitute, lineDepth, iSup₂_le_iff]
  simp only [List.mem_flatMap]
  constructor
  · intro h w hmem
    obtain ⟨hne, hw⟩ := isWord_of_mem_words hmem
    exact (depth_expandWord_le_iff hne hw k).1 fun v hv => h v ⟨w, hmem, hv⟩
  · rintro h v ⟨w, hmem, hv⟩
    obtain ⟨hne, hw⟩ := isWord_of_mem_words hmem
    exact (depth_expandWord_le_iff hne hw k).2 (h w hmem) v hv

/-- A line has depth zero exactly if a round leaves it alone. -/
theorem lineDepth_eq_zero_iff {line : Text} : t.lineDepth line = 0 ↔ t.changes line = false := by
  rw [← nonpos_iff_eq_zero, ← Nat.cast_zero, lineDepth_le_iff, changes_eq_any, List.any_eq_false]
  refine forall₂_congr fun w _ => ?_
  rw [Nat.cast_zero, nonpos_iff_eq_zero, depth_eq_zero_iff]
  simp

/-- A round that changes a line takes off one level. -/
theorem lineDepth_eq_add_one {line : Text} (h : t.changes line = true) :
    t.lineDepth line = t.lineDepth (t.substitute line) + 1 := by
  refine eq_add_one_of_le_iff ?_ fun k => (lineDepth_substitute_le_iff k).symm
  rw [Ne, lineDepth_eq_zero_iff, h]
  exact Bool.noConfusion

/-- **When a line settles.** The rounds suffice exactly if there are more of them than levels, and if no line
on the way is too long. The result is the line after as many rounds as there are levels. -/
theorem expandFor_eq_iff {rounds : Nat} {line out : Text} :
    t.expandFor rounds line = (out, false) ↔
      ∃ d : ℕ, t.lineDepth line = d ∧ d < rounds ∧
        (∀ k, 1 ≤ k → k ≤ d → (t.substitute^[k] line).length ≤ maxLength) ∧ out = t.substitute^[d] line := by
  induction rounds generalizing line with
  | zero => simp [expandFor]
  | succ rounds ih =>
    rw [expandFor]
    split
    · next hchanges =>
      have hdepth := lineDepth_eq_add_one hchanges
      dsimp only
      split
      · next hlong =>
        -- the first round already gives a line that is too long
        refine iff_of_false (by simp) ?_
        rintro ⟨d, hd, -, hlength, -⟩
        have hpos : 1 ≤ d := by
          have h1 : (1 : ℕ∞) ≤ d := by
            rw [← hd, hdepth]
            exact le_add_self
          exact_mod_cast h1
        exact absurd hlong (not_lt.2 (hlength 1 (Nat.le_refl 1) hpos))
      · next hshort =>
        rw [ih]
        constructor
        · rintro ⟨d, hd, hlt, hlength, hout⟩
          refine ⟨d + 1, by rw [hdepth, hd]; rfl, Nat.succ_lt_succ hlt, ?_, hout⟩
          intro k hk hkd
          obtain ⟨k, rfl⟩ := Nat.exists_eq_add_of_le' hk
          cases k with
          | zero => exact not_lt.1 hshort
          | succ k => exact hlength (k + 1) (by omega) (by omega)
        · rintro ⟨d, hd, hlt, hlength, hout⟩
          cases d with
          | zero =>
            rw [hdepth] at hd
            exact absurd hd (by simp)
          | succ d =>
            refine ⟨d, ?_, Nat.lt_of_succ_lt_succ hlt, ?_, hout⟩
            · rw [hdepth, Nat.cast_succ] at hd
              exact ENat.add_left_injective_of_ne_top ENat.one_ne_top hd
            · intro k hk hkd
              exact hlength (k + 1) (by omega) (by omega)
    · next hchanges =>
      rw [Bool.not_eq_true] at hchanges
      have hzero := lineDepth_eq_zero_iff.2 hchanges
      constructor
      · intro h
        obtain rfl : line = out := (Prod.mk.inj h).1
        exact ⟨0, hzero, Nat.succ_pos _, by omega, rfl⟩
      · rintro ⟨d, hd, -, -, hout⟩
        rw [hzero] at hd
        obtain rfl : 0 = d := by exact_mod_cast hd
        rw [hout]
        rfl

/-- A line that has settled does not change. -/
theorem changes_of_expandFor {rounds : Nat} {line out : Text} (h : t.expandFor rounds line = (out, false)) :
    t.changes out = false := by
  induction rounds generalizing line with
  | zero => exact absurd (Prod.mk.inj h).2 (by simp)
  | succ rounds ih =>
    rw [expandFor] at h
    split at h
    · dsimp only at h
      split at h
      · exact absurd (Prod.mk.inj h).2 (by simp)
      · exact ih h
    · next hchanges =>
      rw [← (Prod.mk.inj h).1]
      exact Bool.eq_false_iff.2 hchanges

end MacroTable

namespace Preprocess

variable (t : MacroTable) (n : Nat) (line : Text)

/-- An expansion is reported exactly if it is given up. -/
theorem diagnosticsFrom_expand :
    diagnosticsFrom n [expand t line] =
      if (t.expand line).2 = true then [⟨n, SourceProblem.runaway.message⟩] else [] := by
  rw [diagnosticsFrom_cons, expand]
  dsimp only
  split <;> rfl

theorem diagnosticsFrom_expand_eq_nil_iff :
    diagnosticsFrom n [expand t line] = [] ↔ t.expand line = ((expand t line).output, false) := by
  have houtput : (expand t line).output = (t.expand line).1 := rfl
  rw [diagnosticsFrom_expand, houtput, Prod.ext_iff]
  cases (t.expand line).2 <;> simp

end Preprocess

/-- **Macros expand completely, or the line is reported.** For any macros and any line, let `d` be the greatest
depth of its words. There is no diagnostic exactly if `d` is at most 99 and none of the first `d` rounds gives
more than 65536 bytes. Then the result is the line after `d` rounds, and the names of macros that are left in it
stand for themselves. Otherwise there is one diagnostic. In particular a line with a word that reaches a cycle is
always reported. -/
theorem expansion_settles_or_is_reported (t : MacroTable) (n : Nat) (line : Text) :
    let out := (Preprocess.expand t line).output
    let errors := Preprocess.diagnosticsFrom n [Preprocess.expand t line]
    (errors = [] ↔ t.lineDepth line ≤ 99 ∧
      ∀ k : ℕ, 1 ≤ k → (k : ℕ∞) ≤ t.lineDepth line → (t.substitute^[k] line).length ≤ 65536) ∧
    (errors = [] → ∃ d : ℕ, t.lineDepth line = d ∧ out = t.substitute^[d] line ∧
      ∀ w ∈ out.words, ∀ m, t.find w = some m → m.value = w) ∧
    (errors ≠ [] → errors = [⟨n, SourceProblem.runaway.message⟩]) ∧
    ∀ w ∈ line.words, ∀ v, Relation.ReflTransGen t.Uses w v → Relation.TransGen t.Uses v v → errors ≠ [] := by
  dsimp only
  have hnil := Preprocess.diagnosticsFrom_expand_eq_nil_iff t n line
  -- what the rounds say about a line that is not reported
  have hsettled : Preprocess.diagnosticsFrom n [Preprocess.expand t line] = [] →
      ∃ d : ℕ, t.lineDepth line = d ∧ d < 100 ∧
        (∀ k, 1 ≤ k → k ≤ d → (t.substitute^[k] line).length ≤ 65536) ∧
        (Preprocess.expand t line).output = t.substitute^[d] line :=
    fun h => MacroTable.expandFor_eq_iff.1 (hnil.1 h)
  refine ⟨⟨?_, ?_⟩, ?_, ?_, ?_⟩
  · intro h
    obtain ⟨d, hd, hlt, hlength, -⟩ := hsettled h
    rw [hd]
    refine ⟨by exact_mod_cast Nat.le_of_lt_succ hlt, fun k hk hkd => ?_⟩
    exact hlength k hk (by exact_mod_cast hkd)
  · rintro ⟨hle, hlength⟩
    obtain ⟨d, hd⟩ := ENat.ne_top_iff_exists.1 (ne_top_of_le_ne_top (ENat.natCast_ne_top 99) hle)
    have hlt : d < MacroTable.maxRounds := by
      rw [← hd] at hle
      exact Nat.lt_succ_of_le (by exact_mod_cast hle)
    have hexpand : t.expand line = (t.substitute^[d] line, false) := by
      refine MacroTable.expandFor_eq_iff.2 ⟨d, hd.symm, hlt, fun k hk hkd => ?_, rfl⟩
      refine hlength k hk ?_
      rw [← hd]
      exact_mod_cast hkd
    rw [Preprocess.diagnosticsFrom_expand, hexpand]
    exact if_neg Bool.false_ne_true
  · intro h
    obtain ⟨d, hd, -, -, hout⟩ := hsettled h
    refine ⟨d, hd, hout, ?_⟩
    have hchanges := MacroTable.changes_of_expandFor (hnil.1 h)
    rw [MacroTable.changes_eq_any, List.any_eq_false] at hchanges
    intro w hw m hfind
    have hself := hchanges w hw
    rw [MacroTable.expandWord_eq_of_find hfind] at hself
    simpa using hself
  · intro h
    rw [Preprocess.diagnosticsFrom_expand] at h ⊢
    split
    · rfl
    · next hkept => exact absurd (if_neg hkept) h
  · intro w hw v hreach hcycle h
    obtain ⟨d, hd, -⟩ := hsettled h
    have htop : t.depth w ≤ t.lineDepth line := le_iSup₂_of_le w hw le_rfl
    rw [MacroTable.depth_eq_top_of_reaches hreach hcycle, hd] at htop
    exact absurd htop (by simp)

end Microcode
