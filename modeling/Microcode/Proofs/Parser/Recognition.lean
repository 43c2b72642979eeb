import Mathlib.Data.List.Forall2
import Microcode.Parser.Line
import Microcode.Proofs.Literal.Spelling

/-!
# What parsers recognise

A scan recognises a relation between texts and what is left of them: it reads a value from the cursor and
leaves a rest exactly if the relation holds of the value, the text at the cursor and the rest. The values are
seen through a view, which leaves out where they were read from.

There is one lemma for each combinator, so that the relation of a parser is put together as the parser is.
Two combinators decide by positions, and for them the calculus keeps what positions say: no scan goes back,
and an atom (`Atomic`) stops where it started or not at all. With that

* `optional` reads an atom or leaves the text alone where there is none (`Recognises.optional`);
* `oneOf` recognises the first relation of a list that has anything to say of the text (`firstOf`).
-/

namespace Microcode

namespace Parser

variable {α β γ δ : Type} {c d : Cursor} {e : Stop}

/-- A scan reads, up to a view of its values, exactly what a relation says, and it does not go back. -/
structure Recognises (x : Scan α) (view : α → β) (R : β → Text → Text → Prop) : Prop where
  sound : ∀ {c : Cursor} {a : α} {d : Cursor}, x c = .ok (a, d) → R (view a) c.rest d.rest
  complete : ∀ {c : Cursor} {b : β} {r : Text}, R b c.rest r →
    ∃ a d, x c = .ok (a, d) ∧ view a = b ∧ d.rest = r
  forward : ∀ {c : Cursor} {a : α} {d : Cursor}, x c = .ok (a, d) → c.pos ≤ d.pos
  stop : ∀ {c : Cursor} {e : Stop}, x c = .error e → c.pos ≤ e.pos

namespace Recognises

variable {x : Scan α} {v : α → β} {R R' : β → Text → Text → Prop}

theorem congr (h : Recognises x v R) (hR : ∀ b s r, R b s r ↔ R' b s r) : Recognises x v R' where
  sound hx := (hR _ _ _).1 (h.sound hx)
  complete hb := h.complete ((hR _ _ _).2 hb)
  forward := h.forward
  stop := h.stop

/-- A text has at most one reading. -/
theorem unique (h : Recognises x v R) {b b' : β} {s r r' : Text} (hb : R b s r) (hb' : R b' s r') :
    b = b' ∧ r = r' := by
  obtain ⟨a, d, hx, rfl, rfl⟩ := h.complete (c := ⟨0, s⟩) hb
  obtain ⟨a', d', hx', rfl, rfl⟩ := h.complete (c := ⟨0, s⟩) hb'
  obtain ⟨rfl, rfl⟩ := Prod.mk.inj (Except.ok.inj (hx.symm.trans hx'))
  exact ⟨rfl, rfl⟩

/-- A scan that stops has nothing to read. -/
theorem not_of_error (h : Recognises x v R) (hx : x c = .error e) (b : β) (r : Text) :
    ¬ R b c.rest r := by
  intro hb
  obtain ⟨a, d, hok, -⟩ := h.complete hb
  rw [hx] at hok
  cases hok

/-! ## Values -/

theorem pure {a : α} (b : β) (h : v a = b) :
    Recognises (Pure.pure a) v fun b' s r => b' = b ∧ r = s where
  sound {c a' d} hx := by
    obtain ⟨rfl, rfl⟩ := Prod.mk.inj (Except.ok.inj hx)
    exact ⟨h, rfl⟩
  complete {c b' r} hb := ⟨a, c, rfl, h.trans hb.1.symm, hb.2.symm⟩
  forward {c a' d} hx := by
    obtain ⟨rfl, rfl⟩ := Prod.mk.inj (Except.ok.inj hx)
    exact Nat.le_refl _
  stop hx := by cases hx

/-- Two views of a value, one of them through the other. -/
theorem comp (h : Recognises x v R) (f : β → γ) :
    Recognises x (fun a => f (v a)) fun g s r => ∃ b, g = f b ∧ R b s r where
  sound hx := ⟨_, rfl, h.sound hx⟩
  complete := by
    rintro c g r ⟨b, rfl, hb⟩
    obtain ⟨a, d, hx, rfl, hr⟩ := h.complete hb
    exact ⟨a, d, hx, rfl, hr⟩
  forward := h.forward
  stop := h.stop

end Recognises

/-! ## Sequences -/

/-- A sequence succeeds if its first part does and the next one does behind it. -/
theorem bind_eq_ok_iff {x : Scan α} {k : α → Scan γ} {g : γ} :
    (x >>= k) c = .ok (g, d) ↔ ∃ a m, x c = .ok (a, m) ∧ k a m = .ok (g, d) := by
  have hbind : (x >>= k) c = (x c).bind fun am => k am.1 am.2 := rfl
  rw [hbind]
  cases x c with
  | error e =>
    refine ⟨fun h => ?_, fun ⟨a, m, h, _⟩ => ?_⟩
    · cases h
    · cases h
  | ok am =>
    refine ⟨fun h => ⟨am.1, am.2, rfl, h⟩, fun ⟨a, m, ham, h⟩ => ?_⟩
    cases ham
    exact h

/-- A sequence stops where one of its parts does. -/
theorem bind_eq_error_iff {x : Scan α} {k : α → Scan γ} :
    (x >>= k) c = .error e ↔ x c = .error e ∨ ∃ a m, x c = .ok (a, m) ∧ k a m = .error e := by
  have hbind : (x >>= k) c = (x c).bind fun am => k am.1 am.2 := rfl
  rw [hbind]
  cases x c with
  | error e' =>
    refine ⟨fun h => ?_, fun h => ?_⟩
    · cases h
      exact .inl rfl
    · rcases h with h | ⟨a, m, h, -⟩
      · cases h
        rfl
      · cases h
  | ok am =>
    refine ⟨fun h => .inr ⟨am.1, am.2, rfl, h⟩, fun h => ?_⟩
    rcases h with h | ⟨a, m, ham, h⟩
    · cases h
    · cases ham
      exact h

/-- A list is read by reading its first part and then the others. -/
theorem scan_all_cons (p : Parser α) (ps : List (Parser α)) :
    (all (p :: ps)).scan = p.scan >>= fun a => (all ps).scan >>= fun as => pure (a :: as) :=
  List.mapM_cons

namespace Recognises

variable {x : Scan α} {v : α → β} {R : β → Text → Text → Prop}

/-- A scan and then one that depends on what the first has read. The second relation may depend on the view
of it only. -/
theorem bind {k : α → Scan γ} {w : γ → δ} {S : β → δ → Text → Text → Prop} (hx : Recognises x v R)
    (hk : ∀ a b, v a = b → Recognises (k a) w (S b)) :
    Recognises (x >>= k) w fun g s r => ∃ b m, R b s m ∧ S b g m r where
  sound h := by
    obtain ⟨a, m, ha, hg⟩ := bind_eq_ok_iff.1 h
    exact ⟨v a, m.rest, hx.sound ha, (hk a _ rfl).sound hg⟩
  complete := by
    rintro c g r ⟨b, m, hb, hg⟩
    obtain ⟨a, d, ha, hab, rfl⟩ := hx.complete hb
    obtain ⟨a', d', hg', hw, hr⟩ := (hk a b hab).complete hg
    exact ⟨a', d', bind_eq_ok_iff.2 ⟨a, d, ha, hg'⟩, hw, hr⟩
  forward h := by
    obtain ⟨a, m, ha, hg⟩ := bind_eq_ok_iff.1 h
    exact Nat.le_trans (hx.forward ha) ((hk a _ rfl).forward hg)
  stop h := by
    rcases bind_eq_error_iff.1 h with ha | ⟨a, m, ha, hg⟩
    · exact hx.stop ha
    · exact Nat.le_trans (hx.forward ha) ((hk a _ rfl).stop hg)

/-- A scan whose value does not matter, and then another one. -/
theorem seq {k : Scan γ} {w : γ → δ} {R : Text → Text → Prop} {S : δ → Text → Text → Prop}
    (hx : Recognises x (fun _ => ()) fun _ => R) (hk : Recognises k w S) :
    Recognises (x >>= fun _ => k) w fun g s r => ∃ m, R s m ∧ S g m r := by
  refine (hx.bind fun _ _ _ => hk).congr fun g s r => ?_
  exact ⟨fun ⟨_, m, h⟩ => ⟨m, h⟩, fun ⟨m, h⟩ => ⟨(), m, h⟩⟩

/-- A scan whose value is changed, if the view of the new value shows the same. -/
theorem bind_pure {f : α → γ} {w : γ → β} (h : Recognises x v R) (hf : ∀ a, w (f a) = v a) :
    Recognises (x >>= fun a => Pure.pure (f a)) w R := by
  refine (h.bind fun a b hab => Recognises.pure b ((hf a).trans hab)).congr fun b s r => ?_
  constructor
  · rintro ⟨b', m, hb, rfl, rfl⟩
    exact hb
  · intro hb
    exact ⟨b, r, hb, rfl, rfl⟩

theorem map {p : Parser α} {f : α → γ} {w : γ → β} (h : Recognises p.scan v R)
    (hf : ∀ a, w (f a) = v a) : Recognises (p.map f).scan w R :=
  h.bind_pure hf

/-- A scan that stands for a value. -/
theorem constant {p : Parser α} {f : α → γ} {w : γ → β} {R : Text → Text → Prop}
    (h : Recognises p.scan (fun _ => ()) fun _ => R) (b : β) (hf : ∀ a, w (f a) = b) :
    Recognises (p.map f).scan w fun b' s r => b' = b ∧ R s r := by
  refine ((h.comp fun _ => b).map hf).congr fun b' s r => ?_
  exact ⟨fun ⟨_, h⟩ => h, fun h => ⟨(), h⟩⟩

theorem located (h : Recognises x v R) : Recognises (located x) (fun l => v l.value) R := by
  have hok : ∀ {c : Cursor} {l : Located α} {d : Cursor},
      Parser.located x c = .ok (l, d) ↔ x c = .ok (l.value, d) ∧ l.span = ⟨c.pos, d.pos⟩ := by
    intro c l d
    unfold Parser.located
    cases x c with
    | error e =>
      refine ⟨fun h => ?_, fun h => ?_⟩
      · cases h
      · cases h.1
    | ok am =>
      obtain ⟨a, m⟩ := am
      refine ⟨fun h => ?_, fun h => ?_⟩
      · cases h
        exact ⟨rfl, rfl⟩
      · obtain ⟨span, a'⟩ := l
        obtain ⟨ham, hspan⟩ := h
        cases ham
        cases hspan
        rfl
  -- the place is put around the value, and everything else is that of the scan
  refine ⟨fun hx => h.sound (hok.1 hx).1, fun {c b r} hb => ?_, fun hx => h.forward (hok.1 hx).1,
    fun {c e} hx => ?_⟩
  · obtain ⟨a, d, hx, hab, hr⟩ := h.complete hb
    exact ⟨⟨⟨c.pos, d.pos⟩, a⟩, d, hok.2 ⟨hx, rfl⟩, hab, hr⟩
  · refine h.stop (e := e) ?_
    unfold Parser.located at hx
    cases hxc : x c with
    | error e' =>
      rw [hxc] at hx
      cases hx
      rfl
    | ok am =>
      rw [hxc] at hx
      cases hx

end Recognises

/-! ## Brackets -/

/-- A value in brackets is read if all three parts are read one after another. -/
theorem wrapped_eq_ok_iff {opening closing : Parser γ} {inner : Parser α} {a : α} :
    (wrapped opening inner closing).scan c = .ok (a, d) ↔
      ∃ o c₁, opening.scan c = .ok (o, c₁) ∧ ∃ c₂, inner.scan c₁ = .ok (a, c₂) ∧
        ∃ o', closing.scan c₂ = .ok (o', d) := by
  unfold wrapped
  dsimp only
  constructor
  · intro h
    split at h
    · cases h
    · next o c₁ ho =>
      split at h
      · cases h
      · next a' c₂ hi =>
        split at h
        · cases h
        · next o' c₃ hc =>
          cases h
          exact ⟨o, c₁, ho, c₂, hi, o', hc⟩
  · rintro ⟨o, c₁, ho, c₂, hi, o', hc⟩
    rw [ho]
    dsimp only
    rw [hi]
    dsimp only
    rw [hc]

/-- Brackets are recognised around what is recognised. -/
theorem Recognises.wrapped {opening closing : Parser γ} {inner : Parser α} {v : α → β}
    {Ro Rc : Text → Text → Prop} {R : β → Text → Text → Prop}
    (ho : Recognises opening.scan (fun _ => ()) fun _ => Ro) (hi : Recognises inner.scan v R)
    (hc : Recognises closing.scan (fun _ => ()) fun _ => Rc) :
    Recognises (wrapped opening inner closing).scan v
      fun b s r => ∃ m, Ro s m ∧ ∃ m', R b m m' ∧ Rc m' r where
  sound h := by
    obtain ⟨o, c₁, h₁, c₂, h₂, o', h₃⟩ := wrapped_eq_ok_iff.1 h
    exact ⟨c₁.rest, ho.sound h₁, c₂.rest, hi.sound h₂, hc.sound h₃⟩
  complete := by
    rintro c b r ⟨m, h₁, m', h₂, h₃⟩
    obtain ⟨o, c₁, h₁', -, rfl⟩ := ho.complete (b := ()) h₁
    obtain ⟨a, c₂, h₂', rfl, rfl⟩ := hi.complete h₂
    obtain ⟨o', c₃, h₃', -, rfl⟩ := hc.complete (b := ()) h₃
    exact ⟨a, c₃, wrapped_eq_ok_iff.2 ⟨o, c₁, h₁', c₂, h₂', o', h₃'⟩, rfl, rfl⟩
  forward h := by
    obtain ⟨o, c₁, h₁, c₂, h₂, o', h₃⟩ := wrapped_eq_ok_iff.1 h
    have hle₁ := ho.forward h₁
    have hle₂ := hi.forward h₂
    have hle₃ := hc.forward h₃
    omega
  stop {c e} h := by
    unfold Parser.wrapped at h
    dsimp only at h
    split at h
    · cases h
      exact Nat.le_refl _
    · next o c₁ h₁ =>
      have hle₁ := ho.forward h₁
      split at h
      · next stop h₂ =>
        have hle₂ := hi.stop h₂
        cases h
        dsimp only
        -- a value that is not begun is reported at the bracket
        split
        · exact Nat.le_refl _
        · omega
      · next a c₂ h₂ =>
        have hle₂ := hi.forward h₂
        split at h
        · next stop h₃ =>
          have hle₃ := hc.stop h₃
          cases h
          dsimp only
          omega
        · cases h

/-! ## Choices -/

/-- The first relation of a list that has a reading of the text. -/
def firstOf : List (β → Text → Text → Prop) → β → Text → Text → Prop
  | [], _, _, _ => False
  | R :: Rs, b, s, r => R b s r ∨ (∀ r' b', ¬ R b' s r') ∧ firstOf Rs b s r

/-- What the first of some relations says, one of them says. -/
theorem exists_mem_of_firstOf {Rs : List (β → Text → Text → Prop)} {b : β} {s r : Text}
    (h : firstOf Rs b s r) : ∃ R ∈ Rs, R b s r := by
  induction Rs with
  | nil => exact h.elim
  | cons R Rs ih =>
    rcases h with h | ⟨-, h⟩
    · exact ⟨R, List.mem_cons_self, h⟩
    · obtain ⟨R', hmem, h'⟩ := ih h
      exact ⟨R', List.mem_cons_of_mem R hmem, h'⟩

theorem firstOf_singleton {R : β → Text → Text → Prop} {b : β} {s r : Text} :
    firstOf [R] b s r ↔ R b s r := by
  unfold firstOf firstOf
  rw [and_false, or_false]

/-- Where what follows excludes the first relation, it makes no difference that it comes first. -/
theorem firstOf_cons_iff {R : β → Text → Text → Prop} {Rs : List (β → Text → Text → Prop)} {b : β}
    {s r : Text} (h : firstOf Rs b s r → ∀ r' b', ¬ R b' s r') :
    firstOf (R :: Rs) b s r ↔ R b s r ∨ firstOf Rs b s r :=
  or_congr_right ⟨And.right, fun hRs => ⟨h hRs, hRs⟩⟩

/-- Where the members of a family have no text in common their order does not matter. -/
theorem firstOf_map_iff {ι : Type} {l : List ι} {Q : ι → β → Text → Text → Prop} {b : β} {s r : Text}
    (hQ : ∀ i ∈ l, ∀ j ∈ l, ∀ b b' r r', Q i b s r → Q j b' s r' → i = j) :
    firstOf (l.map Q) b s r ↔ ∃ i ∈ l, Q i b s r := by
  constructor
  · intro h
    obtain ⟨R, hR, hb⟩ := exists_mem_of_firstOf h
    obtain ⟨i, hi, rfl⟩ := List.mem_map.1 hR
    exact ⟨i, hi, hb⟩
  · rintro ⟨i, hi, hb⟩
    induction l with
    | nil => exact absurd hi List.not_mem_nil
    | cons j l ih =>
      by_cases hj : ∃ b' r', Q j b' s r'
      · obtain ⟨b', r', hb'⟩ := hj
        obtain rfl := hQ i hi j List.mem_cons_self _ _ _ _ hb hb'
        exact .inl hb
      · have hij : i ≠ j := by
          rintro rfl
          exact hj ⟨b, r, hb⟩
        refine .inr ⟨fun r' b' hb' => hj ⟨b', r', hb'⟩, ?_⟩
        refine ih (fun i' hi' j' hj' => ?_) (List.mem_of_ne_of_mem hij hi)
        exact hQ i' (List.mem_cons_of_mem j hi') j' (List.mem_cons_of_mem j hj')

section OneOf

variable {v : α → β} {ps : List (Parser α)} {Rs : List (β → Text → Text → Prop)}

/-- What is read is read by the first alternative that fits. -/
theorem tryEach_sound (h : List.Forall₂ (fun p R => Recognises p.scan v R) ps Rs) {best : Stop} {a : α}
    (hok : tryEach c best ps = .ok (a, d)) : firstOf Rs (v a) c.rest d.rest ∧ c.pos ≤ d.pos := by
  induction h generalizing best with
  | nil => cases hok
  | @cons p R ps Rs hp _ ih =>
    unfold tryEach at hok
    split at hok
    · next result hscan =>
      cases hok
      exact ⟨.inl (hp.sound hscan), hp.forward hscan⟩
    · next stop hscan =>
      obtain ⟨hfirst, hle⟩ := ih hok
      exact ⟨.inr ⟨fun r b => hp.not_of_error hscan b r, hfirst⟩, hle⟩

/-- What fits an alternative, and none before it, is read. -/
theorem tryEach_complete (h : List.Forall₂ (fun p R => Recognises p.scan v R) ps Rs) (best : Stop)
    {b : β} {r : Text} (hb : firstOf Rs b c.rest r) :
    ∃ a d, tryEach c best ps = .ok (a, d) ∧ v a = b ∧ d.rest = r := by
  induction h generalizing best with
  | nil => exact hb.elim
  | @cons p R ps Rs hp _ ih =>
    unfold tryEach
    rcases hb with hb | ⟨hnone, hb⟩
    · obtain ⟨a, d, hscan, ha, hr⟩ := hp.complete hb
      rw [hscan]
      exact ⟨a, d, rfl, ha, hr⟩
    · -- the first relation says nothing of the text, so its parser stops
      cases hscan : p.scan c with
      | ok result => exact absurd (hp.sound hscan) (hnone _ _)
      | error stop => exact ih _ hb

/-- A choice does not stop before its start. -/
theorem le_pos_of_tryEach_eq_error (h : List.Forall₂ (fun p R => Recognises p.scan v R) ps Rs)
    {best : Stop} (hbest : c.pos ≤ best.pos) (herr : tryEach c best ps = .error e) : c.pos ≤ e.pos := by
  induction h generalizing best with
  | nil =>
    cases herr
    exact hbest
  | @cons p R ps Rs hp _ ih =>
    unfold tryEach at herr
    split at herr
    · cases herr
    · next stop hscan =>
      refine ih ?_ herr
      split
      · exact hp.stop hscan
      · exact hbest

/-- A choice recognises what the first fitting alternative does. -/
theorem Recognises.oneOf (h : List.Forall₂ (fun p R => Recognises p.scan v R) ps Rs) :
    Recognises (oneOf ps).scan v (firstOf Rs) where
  sound hok := (tryEach_sound h hok).1
  complete hb := tryEach_complete h _ hb
  forward hok := (tryEach_sound h hok).2
  stop herr := le_pos_of_tryEach_eq_error h (Nat.le_refl _) herr

/-- A choice between the members of a family that have no text in common. -/
theorem Recognises.oneOf_map {ι : Type} {l : List ι} {f : ι → Parser α} {Q : ι → β → Text → Text → Prop}
    (h : ∀ i, Recognises (f i).scan v (Q i))
    (hQ : ∀ i ∈ l, ∀ j ∈ l, ∀ s b b' r r', Q i b s r → Q j b' s r' → i = j) :
    Recognises (Parser.oneOf (l.map f)).scan v fun b s r => ∃ i ∈ l, Q i b s r := by
  have hall : List.Forall₂ (fun p R => Recognises p.scan v R) (l.map f) (l.map Q) :=
    List.forall₂_map_left_iff.2 (List.forall₂_map_right_iff.2 (List.forall₂_same.2 fun i _ => h i))
  exact (Recognises.oneOf hall).congr fun b s r => firstOf_map_iff fun i hi j hj => hQ i hi j hj s

end OneOf

/-! ## Optional parts -/

/-- A parser that reads at least a byte, or stops where it started. -/
structure Atomic (p : Parser α) : Prop where
  progress : ∀ {c : Cursor} {a : α} {d : Cursor}, p.scan c = .ok (a, d) → c.pos < d.pos
  stuck : ∀ {c : Cursor} {e : Stop}, p.scan c = .error e → e.pos = c.pos

theorem map_eq_ok_iff {p : Parser α} {f : α → γ} {g : γ} :
    (p.map f).scan c = .ok (g, d) ↔ ∃ a, p.scan c = .ok (a, d) ∧ f a = g := by
  have hmap : (p.map f).scan = p.scan >>= fun a => Pure.pure (f a) := rfl
  rw [hmap, bind_eq_ok_iff]
  constructor
  · rintro ⟨a, m, ha, hpure⟩
    cases hpure
    exact ⟨a, ha, rfl⟩
  · rintro ⟨a, ha, rfl⟩
    exact ⟨a, d, ha, rfl⟩

theorem map_eq_error_iff {p : Parser α} {f : α → γ} :
    (p.map f).scan c = .error e ↔ p.scan c = .error e := by
  have hmap : (p.map f).scan = p.scan >>= fun a => Pure.pure (f a) := rfl
  rw [hmap, bind_eq_error_iff]
  constructor
  · rintro (h | ⟨a, m, -, hpure⟩)
    · exact h
    · cases hpure
  · exact .inl

/-- Changing the value keeps a parser atomic. -/
theorem Atomic.map {p : Parser α} (h : Atomic p) (f : α → γ) : Atomic (p.map f) where
  progress hok := by
    obtain ⟨a, ha, -⟩ := map_eq_ok_iff.1 hok
    exact h.progress ha
  stuck herr := h.stuck (map_eq_error_iff.1 herr)

theorem exists_mem_of_tryEach_eq_ok {ps : List (Parser α)} {best : Stop} {a : α}
    (h : tryEach c best ps = .ok (a, d)) : ∃ p ∈ ps, p.scan c = .ok (a, d) := by
  induction ps generalizing best with
  | nil => cases h
  | cons p ps ih =>
    unfold tryEach at h
    split at h
    · next result hscan =>
      cases h
      exact ⟨p, List.mem_cons_self, hscan⟩
    · obtain ⟨q, hq, hscan⟩ := ih h
      exact ⟨q, List.mem_cons_of_mem p hq, hscan⟩

/-- A choice between atomic parsers stops where it started. -/
theorem pos_of_tryEach_eq_error {ps : List (Parser α)} {best : Stop} (hps : ∀ p ∈ ps, Atomic p)
    (hbest : best.pos = c.pos) (h : tryEach c best ps = .error e) : e.pos = c.pos := by
  induction ps generalizing best with
  | nil =>
    cases h
    exact hbest
  | cons p ps ih =>
    obtain ⟨hp, hps⟩ := List.forall_mem_cons.1 hps
    unfold tryEach at h
    split at h
    · cases h
    · next stop hscan =>
      refine ih hps ?_ h
      split
      · exact hp.stuck hscan
      · exact hbest

/-- A choice between atoms is an atom. -/
theorem Atomic.oneOf {ps : List (Parser α)} (h : ∀ p ∈ ps, Atomic p) : Atomic (oneOf ps) where
  progress hok := by
    obtain ⟨p, hp, hscan⟩ := exists_mem_of_tryEach_eq_ok hok
    exact (h p hp).progress hscan
  stuck herr := pos_of_tryEach_eq_error h rfl herr

/-- A part that may be missing. Where it is, nothing is read, and the text does not start as the part
does. -/
def Maybe (starts : Text → Prop) (R : β → Text → Text → Prop) : Option β → Text → Text → Prop
  | some b, s, r => R b s r
  | none, s, r => r = s ∧ ¬ starts s

/-- An optional part is read or passed over, and it is passed over if it is empty or its parser stops at
once. -/
theorem optional_eq_ok_iff {p : Parser α} {o : Option α} :
    (optional p).scan c = .ok (o, d) ↔
      (∃ a, o = some a ∧ p.scan c = .ok (a, d) ∧ d.pos ≠ c.pos) ∨
      (o = none ∧ d = c ∧ ((∃ a d', p.scan c = .ok (a, d') ∧ d'.pos = c.pos) ∨
        ∃ e, p.scan c = .error e ∧ e.pos = c.pos)) := by
  unfold optional
  dsimp only
  cases hscan : p.scan c with
  | ok result =>
    obtain ⟨a, d'⟩ := result
    dsimp only
    by_cases hpos : d'.pos = c.pos
    · rw [if_pos hpos]
      grind
    · rw [if_neg hpos]
      grind
  | error stop =>
    dsimp only
    by_cases hpos : stop.pos = c.pos
    · rw [if_pos hpos]
      grind
    · rw [if_neg hpos]
      grind

/-- An optional part fails if it stops half way. -/
theorem optional_eq_error_iff {p : Parser α} :
    (optional p).scan c = .error e ↔ p.scan c = .error e ∧ e.pos ≠ c.pos := by
  unfold optional
  dsimp only
  cases p.scan c with
  | ok result =>
    dsimp only
    split
    · grind
    · grind
  | error stop =>
    dsimp only
    split
    · grind
    · grind

namespace Recognises

variable {p : Parser α} {v : α → β} {R : β → Text → Text → Prop}

/-- An optional part, if its parser stops where it started exactly on texts that do not start as the part
does. -/
theorem optional {starts : Text → Prop} (h : Recognises p.scan v R)
    (hstarts : ∀ {b s r}, R b s r → starts s)
    (hpass : ∀ {c : Cursor} {a : α} {d : Cursor}, p.scan c = .ok (a, d) → c.pos < d.pos)
    (hstop : ∀ {c : Cursor} {e : Stop}, p.scan c = .error e → (e.pos = c.pos ↔ ¬ starts c.rest)) :
    Recognises (optional p).scan (Option.map v) (Maybe starts R) := by
  have hok : ∀ {c : Cursor} {o : Option α} {d : Cursor}, (Parser.optional p).scan c = .ok (o, d) ↔
      (∃ a, o = some a ∧ p.scan c = .ok (a, d)) ∨
      (o = none ∧ d = c ∧ ∃ e, p.scan c = .error e ∧ e.pos = c.pos) := by
    -- a reading makes progress, so none is passed over
    intro c o d
    rw [optional_eq_ok_iff]
    grind
  refine ⟨fun {c o d} hx => ?_, fun {c o r} ho => ?_, fun {c o d} hx => ?_, fun {c e} hx => ?_⟩
  · rcases hok.1 hx with ⟨a, rfl, hscan⟩ | ⟨rfl, rfl, e, hscan, hpos⟩
    · exact h.sound hscan
    · exact ⟨rfl, (hstop hscan).1 hpos⟩
  · cases o with
    | some b =>
      obtain ⟨a, d, hscan, rfl, hr⟩ := h.complete (b := b) ho
      exact ⟨some a, d, hok.2 (.inl ⟨a, rfl, hscan⟩), rfl, hr⟩
    | none =>
      -- on a text that does not start as the part does the parser stops at once
      obtain ⟨rfl, hnot⟩ := ho
      cases hscan : p.scan c with
      | ok result => exact absurd (hstarts (h.sound hscan)) hnot
      | error stop =>
        have hpos : stop.pos = c.pos := (hstop hscan).2 hnot
        exact ⟨none, c, hok.2 (.inr ⟨rfl, rfl, stop, hscan, hpos⟩), rfl, rfl⟩
  · rcases hok.1 hx with ⟨a, rfl, hscan⟩ | ⟨rfl, rfl, -⟩
    · exact h.forward hscan
    · exact Nat.le_refl _
  · exact h.stop (optional_eq_error_iff.1 hx).1

/-- An optional atom. -/
theorem optional_atomic (h : Recognises p.scan v R) (ha : Atomic p) :
    Recognises (Parser.optional p).scan (Option.map v) (Maybe (fun s => ∃ b r, R b s r) R) := by
  refine h.optional (fun hb => ⟨_, _, hb⟩) ha.progress fun herr => ?_
  refine iff_of_true (ha.stuck herr) ?_
  rintro ⟨b, r, hb⟩
  exact h.not_of_error herr b r hb

/-- An optional part behind an atom that announces it. -/
theorem optional_preceded {m : Parser γ} {Rm : Text → Text → Prop}
    (hm : Recognises m.scan (fun _ => ()) fun _ => Rm) (ha : Atomic m) (h : Recognises p.scan v R) :
    Recognises (Parser.optional (preceded m p)).scan (Option.map v)
      (Maybe (fun s => ∃ r, Rm s r) fun b s r => ∃ t, Rm s t ∧ R b t r) := by
  refine optional (p := preceded m p) (hm.seq h) ?_ ?_ ?_
  · rintro b s r ⟨t, ht, -⟩
    exact ⟨t, ht⟩
  · intro c a d hok
    obtain ⟨o, c₁, h₁, h₂⟩ := bind_eq_ok_iff.1 hok
    exact Nat.lt_of_lt_of_le (ha.progress h₁) (h.forward h₂)
  · intro c e herr
    rcases bind_eq_error_iff.1 herr with h₁ | ⟨o, c₁, h₁, h₂⟩
    · refine iff_of_true (ha.stuck h₁) ?_
      rintro ⟨r, hr⟩
      exact hm.not_of_error h₁ () r hr
    · -- the mark was read, so the stop lies behind it
      have hpos : c.pos < c₁.pos := ha.progress h₁
      have hle : c₁.pos ≤ e.pos := h.stop h₂
      refine iff_of_false (by omega) ?_
      exact not_not_intro ⟨_, hm.sound h₁⟩

theorem of_view_eq {x : Scan α} {w : α → β} (h : Recognises x v R) (hw : ∀ a, w a = v a) :
    Recognises x w R := by
  rw [funext hw]
  exact h

end Recognises

/-- A mark that may be missing, and whether it is there. -/
def Flag (R : Text → Text → Prop) : Bool → Text → Text → Prop
  | true, s, r => R s r
  | false, s, r => r = s ∧ ∀ t, ¬ R s t

/-- An optional atom of which only the presence counts. -/
theorem Recognises.flag {p : Parser α} {R : Text → Text → Prop}
    (h : Recognises p.scan (fun _ => ()) fun _ => R) (ha : Atomic p) :
    Recognises (Parser.optional p).scan Option.isSome (Flag R) := by
  have hopt := (h.optional_atomic ha).comp Option.isSome
  refine (hopt.congr fun present s r => ?_).of_view_eq fun o => ?_
  · constructor
    · rintro ⟨o, rfl, ho⟩
      cases o with
      | some u => exact ho
      | none => exact ⟨ho.1, fun t ht => ho.2 ⟨(), t, ht⟩⟩
    · intro hf
      cases present with
      | true => exact ⟨some (), rfl, hf⟩
      | false => exact ⟨none, rfl, hf.1, fun ⟨_, t, ht⟩ => hf.2 t ht⟩
  · exact (Option.isSome_map ..).symm

end Parser

end Microcode
