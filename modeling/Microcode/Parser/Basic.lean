import Microcode.Parser.Failure

/-!
# Parsers

A parser reads from a cursor, which is a position together with the bytes from there on. It sees nothing
of what stands before the cursor. It either gives a value and the cursor behind it, or it stops at a
position with a cause. The position at which a parser stops says how far it got: a parser that stops
where it started made no progress, and the combinators decide by that.

* `optional` passes over a parser that makes no progress, but not over one that stops half way;
* `oneOf` takes the first alternative that succeeds, and otherwise reports the one that got furthest;
* `spaced` skips separators first and takes the skip back if nothing follows;
* `wrapped` reads a value between two brackets;
* `all` reads a list of values one after another.
-/

namespace Microcode

/-! ## Positions -/

/-- A stretch of text, from the byte at `start` up to the byte before `stop`. -/
structure Span where
  start : Nat
  stop : Nat
deriving DecidableEq, Repr

/-- A value with the stretch of text that it was read from. -/
structure Located (α : Type) where
  span : Span
  value : α
deriving DecidableEq, Repr

/-- Replaces the value and keeps the place. -/
def Located.map {α β : Type} (f : α → β) (x : Located α) : Located β :=
  ⟨x.span, f x.value⟩

/-- A position in a text and the bytes from there on. -/
structure Cursor where
  pos : Nat
  rest : Text
deriving DecidableEq, Repr

namespace Cursor

/-- The cursor at a position of a text. -/
def ofText (text : Text) (pos : Nat) : Cursor :=
  ⟨pos, text.drop pos⟩

/-- Moves the cursor over `n` bytes. -/
def advance (c : Cursor) (n : Nat) : Cursor :=
  ⟨c.pos + n, c.rest.drop n⟩

end Cursor

/-! ## Scans and parsers -/

/-- Where and why reading stopped. -/
structure Stop where
  pos : Nat
  cause : Failure
deriving DecidableEq, Repr

/-- Reading from a cursor: a value and the cursor behind it, or a stop. -/
abbrev Scan := StateT Cursor (Except Stop)

/-- A scan under the label by which messages name it. -/
structure Parser (α : Type) where
  label : Text
  scan : Scan α

namespace Parser

variable {α β : Type}

/-- Reads the text from a position on. -/
def parseAt (p : Parser α) (text : Text) (pos : Nat) : Except Stop (α × Cursor) :=
  p.scan (Cursor.ofText text pos)

/-- Reads the same text and changes the value. -/
def map (f : α → β) (p : Parser α) : Parser β where
  label := p.label
  scan := f <$> p.scan

/-- Reads nothing. -/
def nothing (a : α) : Parser α where
  label := ascii "parse.None"
  scan := pure a

/-- Records the stretch of text that a scan reads. -/
def located (scan : Scan α) : Scan (Located α) := fun c => do
  let (a, d) ← scan c
  return (⟨⟨c.pos, d.pos⟩, a⟩, d)

/-! ## Combinators -/

/-- Reads `p`, or nothing where `p` makes no progress. -/
def optional (p : Parser α) : Parser (Option α) where
  label := ascii "parse.Optional"
  scan c :=
    match p.scan c with
    | .ok (a, d) => if d.pos = c.pos then .ok (none, c) else .ok (some a, d)
    | .error stop => if stop.pos = c.pos then .ok (none, c) else .error stop

/-- Reads a value between an opening and a closing bracket. -/
def wrapped (opening : Parser β) (inner : Parser α) (closing : Parser β) : Parser α where
  label := ascii "parse.Wrapped"
  scan c :=
    match opening.scan c with
    | .error stop => .error ⟨c.pos, stop.cause⟩
    | .ok (_, c₁) =>
      match inner.scan c₁ with
      | .error stop =>
        .error ⟨if stop.pos = c₁.pos then c.pos else stop.pos, .after opening.label stop.cause⟩
      | .ok (a, c₂) =>
        match closing.scan c₂ with
        | .error stop => .error ⟨stop.pos, .closing opening.label stop.cause⟩
        | .ok (_, c₃) => .ok (a, c₃)

/-- Reads one value after another. -/
def all (ps : List (Parser α)) : Parser (List α) where
  label := ascii "parse.AllOf"
  scan := ps.mapM (·.scan)

/-- Reads a mark and then a value. -/
def preceded (mark : Parser β) (p : Parser α) : Parser α where
  label := ascii "parse.AllOf"
  scan := do
    let _ ← mark.scan
    p.scan

/-- Tries the alternatives in their order; `best` is the stop to report so far. -/
def tryEach (c : Cursor) : (best : Stop) → List (Parser α) → Except Stop (α × Cursor)
  | best, [] => .error best
  | best, p :: ps =>
    match p.scan c with
    | .ok result => .ok result
    | .error stop => tryEach c (if best.pos < stop.pos then stop else best) ps

/-- Reads the first alternative that succeeds. If there is none, the stop that got furthest counts, of
equals the first; if none made progress, the failure names all alternatives. -/
def oneOf (ps : List (Parser α)) : Parser α where
  label := ascii "parse.AnyOf"
  scan c := tryEach c ⟨c.pos, .noneOf (ps.map (·.label))⟩ ps

end Parser

end Microcode
