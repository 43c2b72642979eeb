import Microcode.Proofs.Parser.Tokens

/-!
# Where values lie in a text

The outline of a value is the forest of the stretches of text that it was read from. An outline is in order
between two positions if its stretches lie between them one after another, and what is inside a stretch is in
order between its ends (`Outline.InOrder`).

A scan stays inside (`Inside`) if

* it goes over bytes that are there,
* it stops at one of them or behind the last, and
* the outline of what it has read is in order between where it started and where it ended.

The calculus has one lemma for each combinator. A sequence hands on the outline of what has been read before, so
that the outline of a directive is put together operand by operand.
-/

namespace Microcode

/-! ## Outlines -/

/-- A stretch of text with the stretches inside it. -/
inductive Outline where
  | mk (span : Span) (inner : List Outline)

namespace Outline

mutual

/-- A stretch and all stretches inside it. -/
def spans : Outline → List Span
  | mk span inner => span :: spansOf inner

/-- All stretches of a list of outlines. -/
def spansOf : List Outline → List Span
  | [] => []
  | o :: os => o.spans ++ spansOf os

end

/-- Stretches lie one after another between two positions, and what is inside one lies between its ends in
the same way. -/
inductive InOrder : (lo hi : Nat) → List Outline → Prop where
  | nil {lo hi : Nat} (le : lo ≤ hi) : InOrder lo hi []
  | cons {lo hi : Nat} {span : Span} {inner os : List Outline} (le : lo ≤ span.start)
      (within : InOrder span.start span.stop inner) (behind : InOrder span.stop hi os) :
      InOrder lo hi (mk span inner :: os)

namespace InOrder

variable {lo lo' mid hi : Nat} {os os' : List Outline}

theorem le (h : InOrder lo hi os) : lo ≤ hi := by
  induction h with
  | nil le => exact le
  | cons le _ _ within behind => exact (le.trans within).trans behind

theorem of_le (hle : lo' ≤ lo) (h : InOrder lo hi os) : InOrder lo' hi os := by
  cases h with
  | nil le => exact .nil (hle.trans le)
  | cons le within behind => exact .cons (hle.trans le) within behind

/-- Outlines one behind another are in order together. -/
theorem append (h : InOrder lo mid os) (h' : InOrder mid hi os') : InOrder lo hi (os ++ os') := by
  induction h with
  | nil le => exact h'.of_le le
  | cons le within _ _ ih => exact .cons le within (ih h')

theorem extend (h : InOrder lo mid os) (hle : mid ≤ hi) : InOrder lo hi os := by
  have happend := h.append (.nil hle)
  rwa [List.append_nil] at happend

/-- Every stretch of an outline in order lies between the two positions. -/
theorem span_bounds (h : InOrder lo hi os) :
    ∀ s ∈ spansOf os, lo ≤ s.start ∧ s.start ≤ s.stop ∧ s.stop ≤ hi := by
  induction h with
  | nil _ => exact fun s hs => absurd hs List.not_mem_nil
  | @cons lo hi span inner os le within behind ihw ihb =>
    intro s hs
    have hspan : span.start ≤ span.stop := within.le
    have hstop : span.stop ≤ hi := behind.le
    rw [spansOf, spans, List.cons_append, List.mem_cons, List.mem_append] at hs
    rcases hs with rfl | hs | hs
    · exact ⟨le, hspan, hstop⟩
    · obtain ⟨h₁, h₂, h₃⟩ := ihw s hs
      exact ⟨le.trans h₁, h₂, h₃.trans hstop⟩
    · obtain ⟨h₁, h₂, h₃⟩ := ihb s hs
      exact ⟨(le.trans hspan).trans h₁, h₂, h₃⟩

end InOrder

end Outline

namespace Located

variable {α : Type}

/-- The outline of a value in its place, with the outline of what is inside the value. -/
def outline (inner : α → List Outline) (x : Located α) : List Outline :=
  [⟨x.span, inner x.value⟩]

/-- The outline of a value that has nothing inside. -/
def leaf (x : Located α) : List Outline :=
  x.outline fun _ => []

theorem inOrder_leaf (lo n : Nat) (a : α) :
    Outline.InOrder lo (lo + n) (Located.mk ⟨lo, lo + n⟩ a).leaf :=
  .cons (Nat.le_refl lo) (.nil (Nat.le_add_right lo n)) (.nil (Nat.le_refl _))

end Located

/-! ## Cursors -/

namespace Cursor

theorem advance_advance (c : Cursor) (m n : Nat) : (c.advance m).advance n = c.advance (m + n) := by
  unfold advance
  rw [List.drop_drop, Nat.add_assoc]

/-- How many bytes are left behind some of them. -/
theorem length_rest_advance (c : Cursor) (n : Nat) : (c.advance n).rest.length = c.rest.length - n :=
  List.length_drop

/-- One move behind another stays inside what is left. -/
theorem exists_advance_advance {c : Cursor} {i j : Nat} (hi : i ≤ c.rest.length)
    (hj : j ≤ (c.advance i).rest.length) :
    ∃ n ≤ c.rest.length, (c.advance i).advance j = c.advance n := by
  rw [length_rest_advance] at hj
  exact ⟨i + j, by omega, advance_advance c i j⟩

/-- A cursor that has moved over bytes of a text is a cursor of that text. -/
theorem bounds_of_advance {text : Text} {i : Nat} {d : Cursor} (hi : i ≤ text.length)
    (h : ∃ n ≤ (ofText text i).rest.length, d = (ofText text i).advance n) :
    i ≤ d.pos ∧ d.pos ≤ text.length ∧ d = ofText text d.pos := by
  obtain ⟨n, hn, rfl⟩ := h
  have hlength : (ofText text i).rest.length = text.length - i := List.length_drop
  have hpos : ((ofText text i).advance n).pos = i + n := rfl
  refine ⟨by omega, by omega, ?_⟩
  rw [hpos, advance, ofText, ofText, List.drop_drop]

end Cursor

theorem ByteSet.skip_eq_advance (s : ByteSet) (c : Cursor) :
    s.skip c = c.advance (c.rest.takeWhile s.has).length := by
  rw [Cursor.advance, Parser.drop_length_takeWhile]
  rfl

namespace Parser

variable {α β γ : Type} {c d : Cursor} {e : Stop}

open Outline

/-- A located value has the stretch from where the scan started to where it ended. -/
theorem located_eq_ok_iff {x : Scan α} {l : Located α} :
    located x c = .ok (l, d) ↔ x c = .ok (l.value, d) ∧ l.span = ⟨c.pos, d.pos⟩ := by
  unfold located
  cases x c with
  | error e =>
    refine ⟨fun h => ?_, fun h => ?_⟩
    · cases h
    · cases h.1
  | ok am =>
    obtain ⟨a, m⟩ := am
    refine ⟨fun h => ?_, fun h => ?_⟩
    · cases h
      exact ⟨rfl, rfl⟩
    · obtain ⟨span, a'⟩ := l
      obtain ⟨ham, hspan⟩ := h
      cases ham
      cases hspan
      rfl

theorem located_eq_error_iff {x : Scan α} : located x c = .error e ↔ x c = .error e := by
  unfold located
  cases x c with
  | error e' =>
    refine ⟨fun h => ?_, fun h => ?_⟩
    · cases h
      rfl
    · cases h
      rfl
  | ok am =>
    refine ⟨fun h => ?_, fun h => ?_⟩
    · cases h
    · cases h

/-- What holds of the stops of all alternatives holds of the one that is reported. -/
theorem of_tryEach_eq_error {P : Stop → Prop} {ps : List (Parser α)} {best : Stop} (hbest : P best)
    (hps : ∀ p ∈ ps, ∀ stop, p.scan c = .error stop → P stop) (h : tryEach c best ps = .error e) : P e := by
  induction ps generalizing best with
  | nil =>
    cases h
    exact hbest
  | cons p ps ih =>
    obtain ⟨hp, hps⟩ := List.forall_mem_cons.1 hps
    unfold tryEach at h
    split at h
    · cases h
    · next stop hscan =>
      refine ih ?_ hps h
      split
      · exact hp stop hscan
      · exact hbest

/-! ## Stops that are taken back -/

/-- The second outcome is the first one, but a stop may be taken back to where the scan started. -/
inductive TakenBack (c : Cursor) : Except Stop (α × Cursor) → Except Stop (α × Cursor) → Prop where
  | ok (result : α × Cursor) : TakenBack c (.ok result) (.ok result)
  | error {e e' : Stop} (pos : e'.pos = e.pos ∨ e'.pos = c.pos) : TakenBack c (.error e) (.error e')

namespace TakenBack

variable {r r' : Except Stop (α × Cursor)}

/-- Taking a stop back does not touch a success. -/
theorem ok_iff (h : TakenBack c r r') {result : α × Cursor} : r = .ok result ↔ r' = .ok result := by
  cases h with
  | ok _ => exact Iff.rfl
  | error _ =>
    refine ⟨fun h => ?_, fun h => ?_⟩
    · cases h
    · cases h

/-- A stop is left where it is or taken back to the start. -/
theorem exists_of_error (h : TakenBack c r r') {e' : Stop} (hr : r' = .error e') :
    ∃ e, r = .error e ∧ (e'.pos = e.pos ∨ e'.pos = c.pos) := by
  cases h with
  | ok _ => cases hr
  | error pos =>
    cases hr
    exact ⟨_, rfl, pos⟩

end TakenBack

/-- Skips separators. -/
def skipping (set : ByteSet) : Scan Unit := fun c =>
  .ok ((), set.skip c)

/-- Reads a value between brackets, with stops as they are. -/
def between (opening : Parser β) (inner : Parser α) (closing : Parser β) : Scan α := do
  let _ ← opening.scan
  let a ← inner.scan
  let _ ← closing.scan
  return a

/-- Skipping separators first takes stops back only. -/
theorem takenBack_spaced (set : ByteSet) (p : Parser α) (c : Cursor) :
    TakenBack c ((skipping set >>= fun _ => p.scan) c) ((spaced set p).scan c) := by
  have hskip : (skipping set >>= fun _ => p.scan) c = p.scan (set.skip c) := rfl
  rw [hskip]
  unfold spaced
  dsimp only
  cases p.scan (set.skip c) with
  | ok result => exact .ok result
  | error stop =>
    refine .error ?_
    dsimp only
    split
    · exact .inr rfl
    · exact .inl rfl

/-- Brackets take stops back only. -/
theorem takenBack_wrapped (opening : Parser β) (inner : Parser α) (closing : Parser β) (c : Cursor) :
    TakenBack c (between opening inner closing c) ((wrapped opening inner closing).scan c) := by
  have hbetween : between opening inner closing c = (opening.scan c).bind fun oc =>
      (inner.scan oc.2).bind fun ac => (closing.scan ac.2).bind fun bc => .ok (ac.1, bc.2) := rfl
  rw [hbetween]
  unfold wrapped
  dsimp only
  cases opening.scan c with
  | error stop => exact .error (.inr rfl)
  | ok oc =>
    dsimp only [Except.bind]
    cases inner.scan oc.2 with
    | error stop =>
      refine .error ?_
      dsimp only
      split
      · exact .inr rfl
      · exact .inl rfl
    | ok ac =>
      dsimp only
      cases closing.scan ac.2 with
      | error stop => exact .error (.inl rfl)
      | ok bc => exact .ok _

/-! ## Staying inside -/

/-- A scan that comes behind parts with the outline `before` goes over bytes that are there or stops at one of
them, and it gives values whose outline is in order up to where it ends. -/
structure Inside (before : List Outline) (x : Scan α) (outline : α → List Outline) : Prop where
  advances : ∀ {c : Cursor} {a : α} {d : Cursor}, x c = .ok (a, d) → ∃ n ≤ c.rest.length, d = c.advance n
  stops : ∀ {c : Cursor} {e : Stop}, x c = .error e → c.pos ≤ e.pos ∧ e.pos ≤ c.pos + c.rest.length
  inOrder : ∀ {c : Cursor} {a : α} {d : Cursor} {lo : Nat}, x c = .ok (a, d) →
    InOrder lo c.pos before → InOrder lo d.pos (outline a)

namespace Inside

variable {before : List Outline} {x : Scan α} {o : α → List Outline}

/-- The outline of a value lies between where its scan starts and where it ends. -/
theorem inOrder_self (h : Inside [] x o) {a : α} (hx : x c = .ok (a, d)) : InOrder c.pos d.pos (o a) :=
  h.inOrder hx (.nil (Nat.le_refl _))

/-- What can be read anywhere can be read behind other parts. -/
theorem behind (h : Inside [] x o) (before : List Outline) : Inside before x fun a => before ++ o a where
  advances := h.advances
  stops := h.stops
  inOrder hx hbefore := hbefore.append (h.inOrder_self hx)

/-! ## Sequences -/

theorem pure {a : α} (h : o a = before) : Inside before (Pure.pure a) o where
  advances {c a' d} hx := by
    cases hx
    exact ⟨0, Nat.zero_le _, rfl⟩
  stops hx := by cases hx
  inOrder {c a' d lo} hx hbefore := by
    cases hx
    rwa [h]

/-- A sequence stays inside, with the outline handed on from part to part. -/
theorem bind {k : α → Scan γ} {w : γ → List Outline} (hx : Inside before x o)
    (hk : ∀ a, Inside (o a) (k a) w) : Inside before (x >>= k) w where
  advances h := by
    obtain ⟨a, m, ha, hg⟩ := bind_eq_ok_iff.1 h
    obtain ⟨i, hi, rfl⟩ := hx.advances ha
    obtain ⟨j, hj, rfl⟩ := (hk a).advances hg
    exact Cursor.exists_advance_advance hi hj
  stops {c e} h := by
    rcases bind_eq_error_iff.1 h with ha | ⟨a, m, ha, hg⟩
    · exact hx.stops ha
    · obtain ⟨i, hi, rfl⟩ := hx.advances ha
      obtain ⟨hlow, hhigh⟩ := (hk a).stops hg
      rw [Cursor.length_rest_advance] at hhigh
      have hpos : (c.advance i).pos = c.pos + i := rfl
      omega
  inOrder h hbefore := by
    obtain ⟨a, m, ha, hg⟩ := bind_eq_ok_iff.1 h
    exact (hk a).inOrder hg (hx.inOrder ha hbefore)

/-- The next part of a sequence. -/
theorem andThen {k : α → Scan γ} {w : γ → List Outline} (hx : Inside [] x o)
    (hk : ∀ a, Inside (before ++ o a) (k a) w) : Inside before (x >>= k) w :=
  (hx.behind before).bind hk

/-- The next part of a sequence, if its place is not kept. -/
theorem skip {k : α → Scan γ} {w : γ → List Outline} (hx : Inside [] x o)
    (hk : ∀ a, Inside before (k a) w) : Inside before (x >>= k) w := by
  have hdropped : Inside before x fun _ => before :=
    ⟨hx.advances, hx.stops, fun h hbefore => hbefore.extend (hx.inOrder_self h).le⟩
  exact hdropped.bind hk

theorem map {p : Parser α} {f : α → γ} {w : γ → List Outline} (h : Inside before p.scan o)
    (hf : ∀ a, w (f a) = o a) : Inside before (p.map f).scan w :=
  h.bind fun a => pure (hf a)

/-- A value whose place is not kept. -/
theorem constant {p : Parser α} {f : α → γ} {w : γ → List Outline} (h : Inside [] p.scan o)
    (hf : ∀ a, w (f a) = []) : Inside [] (p.map f).scan w :=
  h.skip fun a => pure (hf a)

/-- A value with its place encloses what is inside it. -/
theorem located (h : Inside [] x o) : Inside [] (located x) (Located.outline o) where
  advances hx := h.advances (located_eq_ok_iff.1 hx).1
  stops hx := h.stops (located_eq_error_iff.1 hx)
  inOrder {c l d lo} hx hlo := by
    obtain ⟨hx, hspan⟩ := located_eq_ok_iff.1 hx
    rw [Located.outline, hspan]
    exact .cons hlo.le (h.inOrder_self hx) (.nil (Nat.le_refl _))

/-! ## Combinators -/

theorem all {ps : List (Parser α)} (h : ∀ p ∈ ps, Inside [] p.scan o) :
    Inside [] (all ps).scan fun as => as.flatMap o := by
  induction ps with
  | nil => exact pure rfl
  | cons p ps ih =>
    obtain ⟨hp, hps⟩ := List.forall_mem_cons.1 h
    rw [scan_all_cons]
    refine hp.andThen fun a => (ih hps).andThen fun as => pure ?_
    rw [List.flatMap_cons, List.nil_append]

/-- What is not there has no outline. -/
theorem optional {p : Parser α} (h : Inside [] p.scan o) :
    Inside [] (optional p).scan fun a => a.elim [] o where
  advances hx := by
    rcases optional_eq_ok_iff.1 hx with ⟨a, -, hscan, -⟩ | ⟨-, rfl, -⟩
    · exact h.advances hscan
    · exact ⟨0, Nat.zero_le _, rfl⟩
  stops hx := h.stops (optional_eq_error_iff.1 hx).1
  inOrder {c a d lo} hx hlo := by
    rcases optional_eq_ok_iff.1 hx with ⟨a, rfl, hscan, -⟩ | ⟨rfl, rfl, -⟩
    · exact h.inOrder hscan hlo
    · exact hlo

/-- A choice stays inside if all alternatives do. -/
theorem oneOf {ps : List (Parser α)} (h : ∀ p ∈ ps, Inside [] p.scan o) :
    Inside [] (oneOf ps).scan o where
  advances hx := by
    obtain ⟨p, hp, hscan⟩ := exists_mem_of_tryEach_eq_ok hx
    exact (h p hp).advances hscan
  stops {c e} hx := by
    refine of_tryEach_eq_error (P := fun e => c.pos ≤ e.pos ∧ e.pos ≤ c.pos + c.rest.length) ?_
      (fun p hp stop hstop => (h p hp).stops hstop) hx
    exact ⟨Nat.le_refl _, Nat.le_add_right _ _⟩
  inOrder hx hlo := by
    obtain ⟨p, hp, hscan⟩ := exists_mem_of_tryEach_eq_ok hx
    exact (h p hp).inOrder hscan hlo

/-- Taking stops back keeps a scan inside. -/
theorem of_takenBack {y : Scan α} (h : Inside before x o) (hy : ∀ c, TakenBack c (x c) (y c)) :
    Inside before y o where
  advances hok := h.advances ((hy _).ok_iff.2 hok)
  stops {c e} herr := by
    obtain ⟨e', hx, hpos⟩ := (hy c).exists_of_error herr
    have hstops := h.stops hx
    rcases hpos with hpos | hpos <;> omega
  inOrder hok hlo := h.inOrder ((hy _).ok_iff.2 hok) hlo

theorem spaced {p : Parser α} (set : ByteSet) (h : Inside [] p.scan o) :
    Inside [] (spaced set p).scan o := by
  have hskip : Inside [] (skipping set) fun _ => [] := by
    refine ⟨fun {c a d} hx => ?_, fun hx => ?_, fun {c a d lo} hx hlo => ?_⟩
    · cases hx
      exact ⟨_, (List.takeWhile_prefix _).length_le, set.skip_eq_advance c⟩
    · cases hx
    · cases hx
      exact hlo.extend (Nat.le_add_right _ _)
  exact (hskip.andThen fun _ => h).of_takenBack (takenBack_spaced set p)

theorem token {p : Parser α} (h : Inside [] p.scan o) : Inside [] p.token o :=
  h.spaced .gaps

theorem wrapped {opening closing : Parser β} {inner : Parser α} {ob oc : β → List Outline}
    (ho : Inside [] opening.scan ob) (hi : Inside [] inner.scan o) (hc : Inside [] closing.scan oc) :
    Inside [] (wrapped opening inner closing).scan o := by
  have hseq : Inside [] (between opening inner closing) o :=
    ho.skip fun _ => hi.andThen fun a => hc.skip fun _ => pure (List.nil_append _).symm
  exact hseq.of_takenBack (takenBack_wrapped opening inner closing)

theorem preceded {mark : Parser β} {p : Parser α} {ob : β → List Outline} (hm : Inside [] mark.scan ob)
    (h : Inside [] p.scan o) : Inside [] (preceded mark p).scan o :=
  hm.skip fun _ => h

/-! ## Tokens -/

/-- A scan that looks at the text once goes over bytes that are there. -/
theorem of_stepwise {v : α → β} {step : Text → Option (β × Nat)} (h : Stepwise x v step)
    (hstep : ∀ {s b n}, step s = some (b, n) → n ≤ s.length)
    (ho : ∀ {c a d}, x c = .ok (a, d) → InOrder c.pos d.pos (o a)) : Inside [] x o where
  advances hx := by
    obtain ⟨n, hn, rfl⟩ := h.exists_of_ok hx
    exact ⟨n, hstep hn, rfl⟩
  stops hx := by
    rw [h.pos_of_error hx]
    exact ⟨Nat.le_refl _, Nat.le_add_right _ _⟩
  inOrder hx hlo := (ho hx).of_le hlo.le

end Inside

/-- A constant stays inside and has no place. -/
theorem inside_const (t : Text) : Inside [] (const t).scan fun _ => [] := by
  refine .of_stepwise (stepwise_const t) (fun {s b n} h => ?_) fun hx => ?_
  · obtain ⟨hstarts, hn⟩ := Option.ite_none_right_eq_some.1 h
    cases hn
    exact (List.isPrefixOf_iff_prefix.1 hstarts).length_le
  · exact .nil ((recognises_const t).forward hx)

/-- A keyword is a stretch with nothing inside. -/
theorem inside_keyword (t : Text) : Inside [] (keyword t).scan Located.leaf := by
  refine .of_stepwise (stepwise_keyword t) (fun {s b n} h => ?_) fun {c l d} hx => ?_
  · obtain ⟨htest, hn⟩ := Option.ite_none_right_eq_some.1 h
    cases hn
    exact (List.isPrefixOf_iff_prefix.1 (Bool.and_eq_true_iff.1 htest).1).length_le
  · unfold keyword at hx
    dsimp only at hx
    split at hx
    · cases hx
      exact Located.inOrder_leaf _ _ _
    · cases hx

theorem inside_rest : Inside [] rest.scan Located.leaf := by
  refine .of_stepwise stepwise_rest (fun {s b n} h => ?_) fun {c l d} hx => ?_
  · obtain ⟨-, hn⟩ := Option.ite_none_right_eq_some.1 h
    cases hn
    exact Nat.le_refl _
  · unfold rest at hx
    dsimp only at hx
    split at hx
    · cases hx
    · cases hx
      exact Located.inOrder_leaf _ _ _

/-- The token of an integer is inside the text. -/
theorem intLength_le (s : Text) : intLength s ≤ s.length := by
  have hsign : signLength s ≤ s.length := by
    cases s with
    | nil => exact Nat.le_refl _
    | cons b s =>
      rw [signLength, List.length_cons]
      split <;> omega
  have hdigits : (digitsOf s).length ≤ (s.drop (signLength s)).length :=
    (List.takeWhile_prefix _).length_le
  rw [List.length_drop] at hdigits
  unfold intLength
  omega

theorem inside_int : Inside [] int.scan Located.leaf := by
  refine .of_stepwise stepwise_int (fun {s b n} h => ?_) fun {c l d} hx => ?_
  · obtain ⟨-, hread⟩ := Option.ite_none_left_eq_some.1 h
    obtain ⟨v, -, hn⟩ := Option.map_eq_some_iff.1 hread
    cases hn
    exact intLength_le s
  · unfold int at hx
    dsimp only at hx
    split at hx
    · cases hx
    · split at hx
      · cases hx
        exact Located.inOrder_leaf _ _ _
      · cases hx

end Parser

end Microcode
