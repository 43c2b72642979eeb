import Mathlib.Logic.Relation
import Microcode.Proofs.Grammar.Outline
import Microcode.Proofs.Parser.Alongside

/-!
# The calls that a parser makes

A parser that is put together from others runs them at cursors that it chooses: at its own, behind separators, or
behind what has been read (`Grammar.Calls`). An operand or a directive is read by the grammar of its line
(`Grammar.body?`): it goes and stops as that grammar does (`Grammar.alike_body`), and it calls it where it starts.

The main statement is that nothing leaves the text (`parsers_stay_inside`). A parser that starts in a text, or at its
end, ends or stops there, makes calls there only, and gives values whose places lie in order between where it
started and where it ended.
-/

namespace Microcode

open Microcode.Parser

/-! ## Bodies -/

namespace Grammar

/-- A grammar behind gaps. -/
def gap (g : Grammar) : Grammar :=
  spaced .gaps g

/-- A constant of ASCII bytes. -/
def mark (s : String) : Grammar :=
  const (ascii s)

/-- A keyword of ASCII bytes. -/
def word (s : String) : Grammar :=
  keyword (ascii s)

/-- An operand of an ASCII kind. -/
def operand (kind : String) : Grammar :=
  indexed (ascii kind)

end Grammar

open Grammar in
/-- The grammar of the lines of each kind. -/
def DirectiveKind.body : DirectiveKind → Grammar
  | madrs => .all [mark "MADRS", gap (mark "["), gap .int, gap (mark "]"), gap (mark "="), gap .rest]
  | input => .all [word "INPUT", gap (.any (Bank.all.map fun b => operand b.name))]
  | output => .all [word "OUTPUT", gap (.any [word "yreg", word "adrs/s", word "adrs", operand "mixer"])]
  | mac => .all [word "MAC", gap (.any [word "input", .temp]), gap (mark ","),
      gap (.any [word "yreg/l", word "yreg", word "shifted", .int]),
      gap (.optional (.all [mark ",", gap .summand]))]
  | smode => .all [word "SMODE", gap (.any (ShiftMode.all.map fun m => word m.name))]
  | store => .all [.any [word "STF", word "ST"], gap (.any [.temp, .address])]
  | load => .all [.any [word "LDF", word "LD"], gap .address, gap (mark ","), gap (operand "mems")]

namespace Grammar

/-- The grammar that an operand or a directive is read by. -/
def body? : Grammar → Option Grammar
  | indexed kind => some (.all [.keyword kind, gap (mark ":"), gap .int])
  | temp => some (.wrapped (mark "[") (gap (operand "temp")) (gap (mark "]")))
  | address => some (.all [.optional (mark "["), gap (operand "madrs"), gap (.optional (mark "+")),
      gap (.optional (mark "]")), gap (.optional (word "/s"))])
  | summand => some (.all [.optional (.any [mark "+", mark "-"]), gap (.any [word "acc", .temp])])
  | directive k => some k.body
  | _ => Option.none

end Grammar

namespace Parser

variable {α β γ : Type}

/-- Two scans that end and stop alike, whatever their values are. -/
def Alike (x : Scan α) (y : Scan β) : Prop :=
  Alongside 0 (fun _ _ => True) x y

theorem Alike.refl (x : Scan α) : Alike x x := by
  intro c
  rw [Cursor.move_zero]
  cases x c with
  | ok result =>
    have hok := Paired.ok (n := 0) (R := fun _ _ => True) (a := result.1) (b := result.1) result.2 trivial
    rwa [Cursor.move_zero] at hok
  | error e =>
    have herror := Paired.error (n := 0) (R := fun (_ _ : α) => True) e
    rwa [Stop.move_zero] at herror

namespace Alike

variable {p : Parser α} {q : Parser β} {x : Scan α} {y : Scan β}

/-- Changing values on the one side makes no difference. -/
theorem map_left (h : Alike p.scan y) (f : α → γ) : Alike (p.map f).scan y := by
  have hmap : Alike (p.scan >>= fun a => pure (f a)) (y >>= pure) :=
    Alongside.bind h fun _ _ _ => .pure trivial
  rwa [bind_pure] at hmap

theorem map_right (h : Alike x q.scan) (f : β → γ) : Alike x (q.map f).scan := by
  have hmap : Alike (x >>= pure) (q.scan >>= fun b => pure (f b)) :=
    Alongside.bind h fun _ _ _ => .pure trivial
  rwa [bind_pure] at hmap

/-- The same parser with its values changed in two ways. -/
theorem maps (p : Parser α) (f : α → β) (g : α → γ) : Alike (p.map f).scan (p.map g).scan :=
  ((Alike.refl p.scan).map_left f).map_right g

/-- Recording the place of a value makes no difference. -/
theorem located_left (h : Alike x y) : Alike (located x) y := by
  intro c
  unfold located
  obtain ⟨a, b, d, hx, hy, -⟩ | ⟨e, hx, hy⟩ := (h c).exists_of
  · rw [hx, hy]
    exact .ok d trivial
  · rw [hx, hy]
    exact .error e

theorem optional (h : Alike p.scan q.scan) : Alike (optional p).scan (optional q).scan :=
  (Alongside.optional h).imp fun _ _ _ => trivial

theorem token (h : Alike p.scan q.scan) : Alike p.token (spaced .gaps q).scan :=
  Alongside.spaced .gaps h

/-- A sequence of scans and a list of parsers: the first of both, and the others. -/
theorem cons {k : α → Scan γ} {qs : List (Parser β)} (h : Alike x q.scan)
    (hk : ∀ a, Alike (k a) (all qs).scan) : Alike (x >>= k) (all (q :: qs)).scan := by
  rw [scan_all_cons]
  exact Alongside.bind h fun a b _ => (hk a).map_right (b :: ·)

theorem nil (a : α) : Alike (pure a) (all ([] : List (Parser β))).scan :=
  Alongside.pure trivial

theorem singleton (h : Alike x q.scan) : Alike x (all [q]).scan := by
  have hcons : Alike (x >>= pure) (all [q]).scan := h.cons nil
  rwa [bind_pure] at hcons

end Alike

/-! ## Operands and directives -/

/-- A constant, a keyword or an operand and its grammar. -/
theorem Alike.node (p : Parser α) (f : α → Node) : Alike p.scan (p.map f).scan :=
  (Alike.refl p.scan).map_right f

/-- An indexed operand goes as its keyword, the colon and the integer. -/
theorem alike_indexed (kind : Text) :
    Alike (indexed kind).scan (Grammar.all [.keyword kind, .gap (.mark ":"), .gap .int]).parser.scan := by
  refine Alike.map_right (Alike.located_left ?_) Node.list
  exact (Alike.node _ _).cons fun _ => (Alike.node _ _).token.cons fun _ =>
    (Alike.node _ _).token.cons fun _ => .nil _

/-- A temporary register goes as an operand in brackets. -/
theorem alike_temp : Alike temp.scan
    (Grammar.wrapped (.mark "[") (.gap (.operand "temp")) (.gap (.mark "]"))).parser.scan := by
  refine Alike.located_left ?_
  have hwrapped : Alike (wrapped (mark "[") (spaced .gaps (indexed (ascii "temp")))
      (spaced .gaps (mark "]"))).scan
      (Grammar.wrapped (.mark "[") (.gap (.operand "temp")) (.gap (.mark "]"))).parser.scan :=
    Alongside.wrapped rfl (Alike.node _ _) (Alike.node _ _).token (Alike.node _ _).token
  exact hwrapped.map_left fun operand => operand.value.index

/-- An address goes as its operand with the marks around it. -/
theorem alike_address : Alike address.scan
    (Grammar.all [.optional (.mark "["), .gap (.operand "madrs"), .gap (.optional (.mark "+")),
      .gap (.optional (.mark "]")), .gap (.optional (.word "/s"))]).parser.scan := by
  refine Alike.map_right (Alike.located_left ?_) Node.list
  have hoptional {β : Type} (p : Parser β) (f : β → Node) :
      Alike (optional p).scan ((optional (p.map f)).map fun node => node.getD .none).scan :=
    (Alike.node p f).optional.map_right _
  exact (hoptional _ _).cons fun _ => (Alike.node _ _).token.cons fun _ => (hoptional _ _).token.cons fun _ =>
    (hoptional _ _).token.cons fun _ => (hoptional _ _).token.cons fun _ => .nil _

/-- A summand goes as a sign and a register. -/
theorem alike_summand : Alike summand.scan
    (Grammar.all [.optional (.any [.mark "+", .mark "-"]), .gap (.any [.word "acc", .temp])]).parser.scan := by
  refine Alike.map_right (Alike.located_left ?_) Node.list
  have hsign : Alike (oneOf [(mark "+").map fun _ => false, (mark "-").map fun _ => true]).scan
      (Grammar.any [.mark "+", .mark "-"]).parser.scan :=
    Alongside.oneOf rfl (.cons (Alike.maps _ _ _) (.cons (Alike.maps _ _ _) .nil))
  have hregister : Alike (oneOf [(word "acc").map fun _ => none, temp.map some]).scan
      (Grammar.any [.word "acc", .temp]).parser.scan :=
    Alongside.oneOf rfl (.cons (Alike.maps _ _ _) (.cons (Alike.maps _ _ _) .nil))
  exact (hsign.optional.map_right _).cons fun _ => hregister.token.cons fun _ => .nil _

end Parser

/-- A directive goes as the list of its parts. -/
theorem DirectiveKind.alike_scan (k : DirectiveKind) : Alike k.scan k.body.parser.scan := by
  -- a directive reads its parts in a sequence, and its body has them in a list
  cases k with
  | madrs =>
    refine Alike.map_right ?_ Node.list
    exact (Alike.node _ _).cons fun _ => (Alike.node _ _).token.cons fun _ => (Alike.node _ _).token.cons fun _ =>
      (Alike.node _ _).token.cons fun _ => (Alike.node _ _).token.cons fun _ =>
      (Alike.node _ _).token.cons fun _ => .nil _
  | input =>
    refine Alike.map_right ?_ Node.list
    have hbank : Alike (oneOf (Bank.all.map bank)).scan
        (Grammar.any (Bank.all.map fun b => .operand b.name)).parser.scan :=
      Alongside.oneOf rfl (.cons (Alike.maps _ _ _) (.cons (Alike.maps _ _ _) (.cons (Alike.maps _ _ _) .nil)))
    exact (Alike.node _ _).cons fun _ => hbank.token.cons fun _ => .nil _
  | output =>
    refine Alike.map_right ?_ Node.list
    have htarget : Alike outputTarget.scan
        (Grammar.any [.word "yreg", .word "adrs/s", .word "adrs", .operand "mixer"]).parser.scan :=
      Alongside.oneOf rfl (.cons (Alike.maps _ _ _) (.cons (Alike.maps _ _ _) (.cons (Alike.maps _ _ _)
        (.cons (Alike.maps _ _ _) .nil))))
    exact (Alike.node _ _).cons fun _ => htarget.token.cons fun _ => .nil _
  | mac =>
    refine Alike.map_right ?_ Node.list
    have hmultiplicand : Alike multiplicand.scan (Grammar.any [.word "input", .temp]).parser.scan :=
      Alongside.oneOf rfl (.cons (Alike.maps _ _ _) (.cons (Alike.maps _ _ _) .nil))
    have hfactor : Alike factor.scan
        (Grammar.any [.word "yreg/l", .word "yreg", .word "shifted", .int]).parser.scan :=
      Alongside.oneOf rfl (.cons (Alike.maps _ _ _) (.cons (Alike.maps _ _ _) (.cons (Alike.maps _ _ _)
        (.cons (Alike.maps _ _ _) .nil))))
    have hsummand : Alike (preceded (mark ",") (spaced .gaps summand)).scan
        (Grammar.all [.mark ",", .gap .summand]).parser.scan :=
      ((Alike.node _ _).cons fun _ => (Alike.node _ _).token.singleton).map_right _
    exact (Alike.node _ _).cons fun _ => hmultiplicand.token.cons fun _ => (Alike.node _ _).token.cons fun _ =>
      hfactor.token.cons fun _ => (hsummand.optional.map_right _).token.cons fun _ => .nil _
  | smode =>
    refine Alike.map_right ?_ Node.list
    have hmode : Alike (oneOf (ShiftMode.all.map fun m => (word m.name).map fun _ => m)).scan
        (Grammar.any (ShiftMode.all.map fun m => .word m.name)).parser.scan :=
      Alongside.oneOf rfl (.cons (Alike.maps _ _ _) (.cons (Alike.maps _ _ _) (.cons (Alike.maps _ _ _)
        (.cons (Alike.maps _ _ _) .nil))))
    exact (Alike.node _ _).cons fun _ => hmode.token.cons fun _ => .nil _
  | store =>
    refine Alike.map_right ?_ Node.list
    have hopcode : Alike (opcode "ST" "STF").scan (Grammar.any [.word "STF", .word "ST"]).parser.scan :=
      Alongside.oneOf rfl (.cons (Alike.maps _ _ _) (.cons (Alike.maps _ _ _) .nil))
    have hdestination : Alike destination.scan (Grammar.any [.temp, .address]).parser.scan :=
      Alongside.oneOf rfl (.cons (Alike.maps _ _ _) (.cons (Alike.maps _ _ _) .nil))
    exact hopcode.cons fun _ => hdestination.token.cons fun _ => .nil _
  | load =>
    refine Alike.map_right ?_ Node.list
    have hopcode : Alike (opcode "LD" "LDF").scan (Grammar.any [.word "LDF", .word "LD"]).parser.scan :=
      Alongside.oneOf rfl (.cons (Alike.maps _ _ _) (.cons (Alike.maps _ _ _) .nil))
    exact hopcode.cons fun _ => (Alike.node _ _).token.cons fun _ => (Alike.node _ _).token.cons fun _ =>
      (Alike.node _ _).token.cons fun _ => .nil _

namespace Grammar

/-- **A parser with a body goes and stops as its body does.** -/
theorem alike_body {g body : Grammar} (h : g.body? = some body) : Alike g.parser.scan body.parser.scan := by
  cases g <;> cases h
  case temp => exact alike_temp.map_left _
  case address => exact alike_address.map_left _
  case summand => exact alike_summand.map_left _
  case directive k => exact k.alike_scan.located_left.map_left _
  case indexed kind => exact (alike_indexed kind).map_left _

/-! ## Calls -/

/-- A parser at a cursor runs another parser at a cursor. A part of a sequence is run where the parts before it
have ended, and an alternative if those before it have stopped. -/
inductive Calls : Grammar × Cursor → Grammar × Cursor → Prop where
  | body {g body : Grammar} {c : Cursor} (known : g.body? = some body) : Calls (g, c) (body, c)
  | optional {g : Grammar} {c : Cursor} : Calls (.optional g, c) (g, c)
  | spaced {g : Grammar} {c : Cursor} {set : ByteSet} : Calls (.spaced set g, c) (g, set.skip c)
  | opening {opening g closing : Grammar} {c : Cursor} : Calls (.wrapped opening g closing, c) (opening, c)
  | inner {opening g closing : Grammar} {c d : Cursor} {node : Node}
      (opened : opening.parser.scan c = .ok (node, d)) : Calls (.wrapped opening g closing, c) (g, d)
  | closing {opening g closing : Grammar} {c d e : Cursor} {node node' : Node}
      (opened : opening.parser.scan c = .ok (node, d)) (read : g.parser.scan d = .ok (node', e)) :
      Calls (.wrapped opening g closing, c) (closing, e)
  | part {before after : List Grammar} {g : Grammar} {c d : Cursor} {node : Node}
      (read : (Grammar.all before).parser.scan c = .ok (node, d)) : Calls (.all (before ++ g :: after), c) (g, d)
  | alternative {before after : List Grammar} {g : Grammar} {c : Cursor}
      (stopped : ∀ h ∈ before, ∃ e, h.parser.scan c = .error e) : Calls (.any (before ++ g :: after), c) (g, c)

/-- A call starts at a byte that is left or behind the last of them. -/
theorem Calls.advances {r s : Grammar × Cursor} (h : Calls r s) :
    ∃ n ≤ r.2.rest.length, s.2 = r.2.advance n := by
  cases h with
  | body _ => exact ⟨0, Nat.zero_le _, rfl⟩
  | optional => exact ⟨0, Nat.zero_le _, rfl⟩
  | spaced => exact ⟨_, (List.takeWhile_prefix _).length_le, ByteSet.skip_eq_advance _ _⟩
  | opening => exact ⟨0, Nat.zero_le _, rfl⟩
  | inner opened => exact (inside_scan _).advances opened
  | closing opened read =>
    obtain ⟨i, hi, rfl⟩ := (inside_scan _).advances opened
    obtain ⟨j, hj, rfl⟩ := (inside_scan _).advances read
    exact Cursor.exists_advance_advance hi hj
  | part read => exact (inside_scan _).advances read
  | alternative _ => exact ⟨0, Nat.zero_le _, rfl⟩

/-- The calls of calls start there as well. -/
theorem advances_of_reflTransGen {r s : Grammar × Cursor} (h : Relation.ReflTransGen Calls r s) :
    ∃ n ≤ r.2.rest.length, s.2 = r.2.advance n := by
  induction h with
  | refl => exact ⟨0, Nat.zero_le _, rfl⟩
  | tail _ hcall ih =>
    obtain ⟨i, hi, hmid⟩ := ih
    obtain ⟨j, hj, hend⟩ := hcall.advances
    rw [hmid] at hj hend
    rw [hend]
    exact Cursor.exists_advance_advance hi hj

end Grammar

/-- **Every parser stays inside the text.** It ends or stops in the text, not before its start, and so do all calls
that it makes, directly or through other calls. The places in what it reads lie between its start and its end; they
follow each other in order, and those inside a place lie between its ends. The calls of an operand or a directive
are those of its body, which goes and stops as it does. -/
theorem parsers_stay_inside (g : Grammar) {b : Text} {st : Nat} (hst : st ≤ b.length) :
    (∀ node c, g.parser.parseAt b st = .ok (node, c) →
      (st ≤ c.pos ∧ c.pos ≤ b.length ∧ c = .ofText b c.pos) ∧
      (∀ s ∈ Outline.spansOf node.outline, st ≤ s.start ∧ s.start ≤ s.stop ∧ s.stop ≤ c.pos) ∧
      Outline.InOrder st c.pos node.outline) ∧
    (∀ e, g.parser.parseAt b st = .error e → st ≤ e.pos ∧ e.pos ≤ b.length) ∧
    (∀ h d, Relation.ReflTransGen Grammar.Calls (g, .ofText b st) (h, d) →
      st ≤ d.pos ∧ d.pos ≤ b.length ∧ d = .ofText b d.pos) ∧
    ∀ h body : Grammar, h.body? = some body → Parser.Alike h.parser.scan body.parser.scan := by
  have hinside := g.inside_scan
  have hlength : (Cursor.ofText b st).rest.length = b.length - st := List.length_drop
  refine ⟨fun node c hok => ?_, fun e herr => ?_, fun h d hcalls => ?_, fun h body => Grammar.alike_body⟩
  · have horder : Outline.InOrder st c.pos node.outline := hinside.inOrder_self hok
    exact ⟨Cursor.bounds_of_advance hst (hinside.advances hok), horder.span_bounds, horder⟩
  · obtain ⟨hlow, hhigh⟩ := hinside.stops herr
    have hpos : (Cursor.ofText b st).pos = st := rfl
    omega
  · exact Cursor.bounds_of_advance hst (Grammar.advances_of_reflTransGen hcalls)

/-- A multiplication with all its operands, behind a byte and a gap. -/
theorem parsers_stay_inside_mac :
    ∃ node, (Grammar.gap (.directive .mac)).parser.parseAt (ascii "x MAC [temp:3], -5, -[temp:2]") 1 =
        .ok (node, .ofText (ascii "x MAC [temp:3], -5, -[temp:2]") 29) ∧
      Outline.spansOf node.outline = [⟨2, 29⟩, ⟨6, 14⟩, ⟨16, 18⟩, ⟨20, 29⟩, ⟨21, 29⟩] ∧
      Outline.InOrder 1 29 node.outline := by
  have hread : (Grammar.gap (.directive .mac)).parser.parseAt (ascii "x MAC [temp:3], -5, -[temp:2]") 1 =
      .ok (.directive ⟨⟨2, 29⟩, .mac ⟨⟨6, 14⟩, .temp 3⟩ ⟨⟨16, 18⟩, .coefficient (-5)⟩
        (some ⟨⟨20, 29⟩, true, some ⟨⟨21, 29⟩, 2⟩⟩)⟩, .ofText (ascii "x MAC [temp:3], -5, -[temp:2]") 29) :=
    rfl
  exact ⟨_, hread, rfl, ((parsers_stay_inside _ (by decide)).1 _ _ hread).2.2⟩

end Microcode
