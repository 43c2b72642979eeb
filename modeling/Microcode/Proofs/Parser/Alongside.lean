import Microcode.Parser.Token
import Microcode.Proofs.Parser.Recognition

/-!
# Two scans side by side

Two scans run alongside each other (`Alongside`) if the second one, which starts `n` positions further on with the
same bytes before it, ends or stops `n` positions further on than the first, for the same cause, with a value that
is related to the value of the first.

The rules have one lemma for each combinator. The combinators compare positions with each other only, and moving
both sides of a comparison does not change it; that is all that the rules rest on.

* With a scan on both sides and a relation that moves values, the rules say that it does not matter where a text
  starts.
* With `n = 0` and any two values related, they say that two scans go and stop alike.
-/

namespace Microcode

/-! ## Moving positions -/

/-- The cursor `n` positions further on, with the same bytes left. -/
def Cursor.move (n : Nat) (c : Cursor) : Cursor :=
  ⟨n + c.pos, c.rest⟩

/-- The stop `n` positions further on. -/
def Stop.move (n : Nat) (e : Stop) : Stop :=
  ⟨n + e.pos, e.cause⟩

/-- The stretch of text `n` positions further on. -/
def Span.move (n : Nat) (s : Span) : Span :=
  ⟨n + s.start, n + s.stop⟩

/-- The value in a place `n` positions further on. -/
def Located.move {α : Type} (n : Nat) (x : Located α) : Located α :=
  ⟨x.span.move n, x.value⟩

theorem Cursor.pos_move (n : Nat) (c : Cursor) : (c.move n).pos = n + c.pos := rfl

theorem Cursor.rest_move (n : Nat) (c : Cursor) : (c.move n).rest = c.rest := rfl

theorem Stop.pos_move (n : Nat) (e : Stop) : (e.move n).pos = n + e.pos := rfl

theorem Cursor.move_zero (c : Cursor) : c.move 0 = c := by
  rw [Cursor.move, Nat.zero_add]

theorem Stop.move_zero (e : Stop) : e.move 0 = e := by
  rw [Stop.move, Nat.zero_add]

/-- Moving and going over bytes can be exchanged. -/
theorem Cursor.move_advance (n m : Nat) (c : Cursor) : (c.advance m).move n = (c.move n).advance m := by
  rw [Cursor.move, Cursor.advance, Cursor.advance, ← Nat.add_assoc]
  rfl

/-- Moving and skipping can be exchanged. -/
theorem ByteSet.skip_move (s : ByteSet) (n : Nat) (c : Cursor) : s.skip (c.move n) = (s.skip c).move n := by
  rw [Cursor.move, ByteSet.skip, ByteSet.skip, Cursor.move, Nat.add_assoc]

namespace Parser

variable {α β γ δ : Type} {n : Nat}

/-! ## The relation -/

/-- The second outcome is `n` positions further on than the first, with a related value. -/
inductive Paired (n : Nat) (R : α → β → Prop) :
    Except Stop (α × Cursor) → Except Stop (β × Cursor) → Prop where
  | ok {a : α} {b : β} (d : Cursor) (value : R a b) : Paired n R (.ok (a, d)) (.ok (b, d.move n))
  | error (e : Stop) : Paired n R (.error e) (.error (e.move n))

/-- Two paired outcomes are both values or both stops. -/
theorem Paired.exists_of {R : α → β → Prop} {r : Except Stop (α × Cursor)}
    {r' : Except Stop (β × Cursor)} (h : Paired n R r r') :
    (∃ a b d, r = .ok (a, d) ∧ r' = .ok (b, d.move n) ∧ R a b) ∨
      ∃ e, r = .error e ∧ r' = .error (e.move n) := by
  cases h with
  | ok d value => exact .inl ⟨_, _, d, rfl, rfl, value⟩
  | error e => exact .inr ⟨e, rfl, rfl⟩

/-- The second scan, started `n` positions further on, ends or stops `n` positions further on. -/
def Alongside (n : Nat) (R : α → β → Prop) (x : Scan α) (y : Scan β) : Prop :=
  ∀ c, Paired n R (x c) (y (c.move n))

namespace Alongside

variable {R : α → β → Prop} {S : γ → δ → Prop} {x : Scan α} {y : Scan β}

theorem imp {R' : α → β → Prop} (h : Alongside n R x y) (hR : ∀ a b, R a b → R' a b) :
    Alongside n R' x y := by
  intro c
  obtain ⟨a, b, d, hx, hy, hab⟩ | ⟨e, hx, hy⟩ := (h c).exists_of
  · rw [hx, hy]
    exact .ok d (hR a b hab)
  · rw [hx, hy]
    exact .error e

/-! ## Sequences -/

theorem pure {a : α} {b : β} (h : R a b) : Alongside n R (Pure.pure a) (Pure.pure b) :=
  fun c => .ok c h

/-- Sequences go alongside each other if their parts do. -/
theorem bind {k : α → Scan γ} {l : β → Scan δ} (h : Alongside n R x y)
    (hk : ∀ a b, R a b → Alongside n S (k a) (l b)) : Alongside n S (x >>= k) (y >>= l) := by
  intro c
  have hxk : (x >>= k) c = (x c).bind fun ac => k ac.1 ac.2 := rfl
  have hyl : (y >>= l) (c.move n) = (y (c.move n)).bind fun bc => l bc.1 bc.2 := rfl
  rw [hxk, hyl]
  obtain ⟨a, b, d, hx, hy, hab⟩ | ⟨e, hx, hy⟩ := (h c).exists_of
  · rw [hx, hy]
    exact hk a b hab d
  · rw [hx, hy]
    exact .error e

theorem map {p : Parser α} {q : Parser β} {f : α → γ} {g : β → δ} (h : Alongside n R p.scan q.scan)
    (hf : ∀ a b, R a b → S (f a) (g b)) : Alongside n S (p.map f).scan (q.map g).scan :=
  h.bind fun a b hab => pure (hf a b hab)

theorem located (h : Alongside n R x y) :
    Alongside n (fun l m => m.span = l.span.move n ∧ R l.value m.value) (located x) (located y) := by
  intro c
  unfold Parser.located
  obtain ⟨a, b, d, hx, hy, hab⟩ | ⟨e, hx, hy⟩ := (h c).exists_of
  · rw [hx, hy]
    exact .ok d ⟨rfl, hab⟩
  · rw [hx, hy]
    exact .error e

/-- One part after another. -/
theorem all {ps : List (Parser α)} {qs : List (Parser β)}
    (h : List.Forall₂ (fun p q => Alongside n R p.scan q.scan) ps qs) :
    Alongside n (List.Forall₂ R) (all ps).scan (all qs).scan := by
  induction h with
  | nil => exact pure .nil
  | cons hp _ ih =>
    rw [scan_all_cons, scan_all_cons]
    exact hp.bind fun a b hab => ih.bind fun as bs habs => pure (.cons hab habs)

/-! ## Combinators -/

/-- Whether there was progress is seen from both places alike. -/
theorem optional {p : Parser α} {q : Parser β} (h : Alongside n R p.scan q.scan) :
    Alongside n (Option.Rel R) (optional p).scan (optional q).scan := by
  intro c
  unfold Parser.optional
  obtain ⟨a, b, d, hp, hq, hab⟩ | ⟨e, hp, hq⟩ := (h c).exists_of
  · dsimp only
    rw [hp, hq]
    simp only [Cursor.pos_move, Nat.add_left_cancel_iff]
    split
    · exact .ok c .none
    · exact .ok d (.some hab)
  · dsimp only
    rw [hp, hq]
    simp only [Cursor.pos_move, Stop.pos_move, Nat.add_left_cancel_iff]
    split
    · exact .ok c .none
    · exact .error e

/-- Whether a skip is taken back is seen from both places alike. -/
theorem spaced {p : Parser α} {q : Parser β} (set : ByteSet) (h : Alongside n R p.scan q.scan) :
    Alongside n R (spaced set p).scan (spaced set q).scan := by
  intro c
  unfold Parser.spaced
  dsimp only
  rw [ByteSet.skip_move]
  obtain ⟨a, b, d, hp, hq, hab⟩ | ⟨e, hp, hq⟩ := (h (set.skip c)).exists_of
  · rw [hp, hq]
    exact .ok d hab
  · rw [hp, hq]
    simp only [Cursor.pos_move, Stop.pos_move, Nat.add_left_cancel_iff]
    split
    · exact .error ⟨c.pos, e.cause⟩
    · exact .error e

/-- Where a bracket stops is seen from both places alike. -/
theorem wrapped {o cl : Parser γ} {o' cl' : Parser δ} {p : Parser α} {q : Parser β}
    {S' : γ → δ → Prop} (hlabel : o.label = o'.label) (ho : Alongside n S o.scan o'.scan)
    (h : Alongside n R p.scan q.scan) (hc : Alongside n S' cl.scan cl'.scan) :
    Alongside n R (wrapped o p cl).scan (wrapped o' q cl').scan := by
  intro c
  unfold Parser.wrapped
  dsimp only
  rw [hlabel]
  obtain ⟨a, b, c₁, ho₁, ho₂, -⟩ | ⟨e, ho₁, ho₂⟩ := (ho c).exists_of
  · rw [ho₁, ho₂]
    dsimp only
    obtain ⟨a, b, c₂, hp, hq, hab⟩ | ⟨e, hp, hq⟩ := (h c₁).exists_of
    · rw [hp, hq]
      dsimp only
      obtain ⟨_, _, c₃, hc₁, hc₂, -⟩ | ⟨e, hc₁, hc₂⟩ := (hc c₂).exists_of
      · rw [hc₁, hc₂]
        exact .ok c₃ hab
      · rw [hc₁, hc₂]
        exact .error ⟨e.pos, .closing o'.label e.cause⟩
    · rw [hp, hq]
      simp only [Cursor.pos_move, Stop.pos_move, Nat.add_left_cancel_iff]
      split
      · exact .error ⟨c.pos, .after o'.label e.cause⟩
      · exact .error ⟨e.pos, .after o'.label e.cause⟩
  · rw [ho₁, ho₂]
    exact .error ⟨c.pos, e.cause⟩

/-- Which stop got furthest is seen from both places alike. -/
theorem tryEach {ps : List (Parser α)} {qs : List (Parser β)}
    (h : List.Forall₂ (fun p q => Alongside n R p.scan q.scan) ps qs) (c : Cursor) (best : Stop) :
    Paired n R (tryEach c best ps) (tryEach (c.move n) (best.move n) qs) := by
  induction h generalizing best with
  | nil => exact .error best
  | cons hp _ ih =>
    unfold Parser.tryEach
    obtain ⟨a, b, d, hp₁, hp₂, hab⟩ | ⟨e, hp₁, hp₂⟩ := (hp c).exists_of
    · rw [hp₁, hp₂]
      exact .ok d hab
    · rw [hp₁, hp₂]
      dsimp only
      have hbest : (if (best.move n).pos < (e.move n).pos then e.move n else best.move n) =
          (if best.pos < e.pos then e else best).move n := by
        rw [apply_ite (Stop.move n)]
        exact if_congr Nat.add_lt_add_iff_left rfl rfl
      rw [hbest]
      exact ih _

theorem oneOf {ps : List (Parser α)} {qs : List (Parser β)}
    (hlabel : ps.map (·.label) = qs.map (·.label))
    (h : List.Forall₂ (fun p q => Alongside n R p.scan q.scan) ps qs) :
    Alongside n R (oneOf ps).scan (oneOf qs).scan := by
  intro c
  unfold Parser.oneOf
  dsimp only
  rw [hlabel]
  exact tryEach h c _

end Alongside

/-! ## Scans alongside themselves -/

/-- A scan that is started `n` positions further on gives the value that `f` makes of the one it would give. -/
def Steady (n : Nat) (f : α → α) (x : Scan α) : Prop :=
  Alongside n (fun a b => b = f a) x x

namespace Steady

variable {f : α → α} {g : γ → γ} {x : Scan α}

/-- The next part of a sequence, which sees the moved value on the other side. -/
theorem bind {k : α → Scan γ} {l : α → Scan δ} {S : γ → δ → Prop} (h : Steady n f x)
    (hk : ∀ a, Alongside n S (k a) (l (f a))) : Alongside n S (x >>= k) (x >>= l) :=
  Alongside.bind h fun a _ hab => hab ▸ hk a

theorem map {p : Parser α} {φ : α → γ} (h : Steady n f p.scan) (hφ : ∀ a, φ (f a) = g (φ a)) :
    Steady n g (p.map φ).scan :=
  Alongside.map h fun a b hab => by rw [hab, hφ]

theorem located (h : Steady n f x) : Steady n (fun l => (l.map f).move n) (located x) := by
  refine (Alongside.located h).imp fun l m ⟨hspan, hvalue⟩ => ?_
  obtain ⟨span, value⟩ := m
  cases hspan
  cases hvalue
  rfl

theorem optional {p : Parser α} (h : Steady n f p.scan) : Steady n (Option.map f) (optional p).scan := by
  refine (Alongside.optional h).imp fun o o' hrel => ?_
  cases hrel with
  | some hab => exact congrArg some hab
  | none => rfl

theorem spaced {p : Parser α} (set : ByteSet) (h : Steady n f p.scan) : Steady n f (spaced set p).scan :=
  Alongside.spaced set h

theorem token {p : Parser α} (h : Steady n f p.scan) : Steady n f p.token :=
  h.spaced .gaps

theorem wrapped {o cl : Parser γ} {p : Parser α} {g' : γ → γ} (ho : Steady n g o.scan)
    (h : Steady n f p.scan) (hc : Steady n g' cl.scan) : Steady n f (wrapped o p cl).scan :=
  Alongside.wrapped rfl ho h hc

theorem oneOf {ps : List (Parser α)} (h : ∀ p ∈ ps, Steady n f p.scan) : Steady n f (oneOf ps).scan :=
  Alongside.oneOf rfl (List.forall₂_same.2 h)

theorem all {ps : List (Parser α)} (h : ∀ p ∈ ps, Steady n f p.scan) :
    Steady n (List.map f) (all ps).scan := by
  refine (Alongside.all (List.forall₂_same.2 h)).imp fun as bs hrel => ?_
  induction hrel with
  | nil => rfl
  | cons hab _ ih => rw [hab, ih, List.map_cons]

end Steady

/-! ## Tokens -/

/-- A token that goes over some bytes. -/
theorem Paired.advance {R : α → β → Prop} {a : α} {b : β} (c : Cursor) (m : Nat) (h : R a b) :
    Paired n R (.ok (a, c.advance m)) (.ok (b, (c.move n).advance m)) := by
  rw [← Cursor.move_advance]
  exact .ok _ h

/-- The place of a token moves with its start. -/
theorem mk_move (n i m : Nat) (a : α) :
    Located.mk ⟨n + i, n + i + m⟩ a = (Located.mk ⟨i, i + m⟩ a).move n := by
  rw [Located.move, Span.move, Nat.add_assoc]

/-- A constant has no place, and is read wherever it stands. -/
theorem steady_const (n : Nat) (t : Text) : Steady n id (const t).scan := by
  intro c
  unfold const
  dsimp only
  rw [Cursor.rest_move]
  split
  · exact .advance c t.length rfl
  · exact .error ⟨c.pos, .missing t.quote⟩

theorem steady_keyword (n : Nat) (t : Text) : Steady n (Located.move n) (keyword t).scan := by
  intro c
  unfold keyword
  dsimp only
  rw [Cursor.rest_move]
  split
  · exact .advance c t.length (mk_move n c.pos t.length t)
  · exact .error ⟨c.pos, .missing t.quote⟩

theorem steady_rest (n : Nat) : Steady n (Located.move n) rest.scan := by
  intro c
  unfold rest
  dsimp only
  rw [Cursor.rest_move]
  split
  · exact .error ⟨c.pos, .noText⟩
  · exact .advance c c.rest.length (mk_move n c.pos c.rest.length c.rest.trim)

theorem steady_int (n : Nat) : Steady n (Located.move n) int.scan := by
  intro c
  unfold int
  dsimp only
  rw [Cursor.rest_move]
  split
  · exact .error ⟨c.pos, .noInteger⟩
  · split
    · exact .advance c _ (mk_move n c.pos _ _)
    · exact .error ⟨c.pos, _⟩

end Parser

end Microcode
