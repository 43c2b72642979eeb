import Microcode.Parser.Basic
import Microcode.Text.Blank

/-!
# Tokens

The parsers that look at bytes: separators, constants, keywords, integers and the rest of a line.
-/

namespace Microcode

/-! ## Separators -/

/-- A set of bytes below 64, one bit for each. -/
structure ByteSet where
  mask : BitVec 64
deriving DecidableEq, Repr

namespace ByteSet

/-- Whether a byte belongs to the set. -/
def has (s : ByteSet) (b : UInt8) : Bool :=
  s.mask.getLsbD b.toNat

/-- The set of the given bytes below 64. -/
def ofText (t : Text) : ByteSet :=
  ⟨t.foldr (fun b m => (1#64 <<< b.toNat) ||| m) 0#64⟩

/-- The separators of tokens on a line: space and tab. -/
def gaps : ByteSet := ofText (ascii " \t")

/-- What may end a line: spaces, tabs, carriage returns and newlines. -/
def lineEnds : ByteSet := ofText (ascii " \t\r\n")

/-- Moves the cursor over all bytes of the set that follow. -/
def skip (s : ByteSet) (c : Cursor) : Cursor :=
  ⟨c.pos + (c.rest.takeWhile s.has).length, c.rest.dropWhile s.has⟩

end ByteSet

namespace Parser

variable {α : Type}

/-- Skips separators and reads `p`. If `p` makes no progress the separators are not read either. -/
def spaced (set : ByteSet) (p : Parser α) : Parser α where
  label := p.label
  scan c :=
    match p.scan (set.skip c) with
    | .ok result => .ok result
    | .error stop => .error ⟨if stop.pos = (set.skip c).pos then c.pos else stop.pos, stop.cause⟩

/-- Reads `p` as the next token of a line. -/
def token (p : Parser α) : Scan α :=
  (spaced .gaps p).scan

/-! ## Texts -/

/-- Reads exactly the given bytes. -/
def const (t : Text) : Parser Text where
  label := t.quote
  scan c :=
    if t.isPrefixOf c.rest then .ok (t, c.advance t.length) else .error ⟨c.pos, .missing t.quote⟩

/-- Whether the text goes on with a byte of a word. -/
def startsWord : Text → Bool
  | [] => false
  | b :: _ => Text.isWord b

/-- Reads the given bytes where no byte of a word follows them. -/
def keyword (t : Text) : Parser (Located Text) where
  label := t.quote
  scan c :=
    if t.isPrefixOf c.rest && !startsWord (c.rest.drop t.length) then
      .ok (⟨⟨c.pos, c.pos + t.length⟩, t⟩, c.advance t.length)
    else .error ⟨c.pos, .missing t.quote⟩

/-- Reads all the text that is left. The value is trimmed and must not be empty. -/
def rest : Parser (Located Text) where
  label := ascii "parse.Rest"
  scan c :=
    if c.rest.trim.isEmpty then .error ⟨c.pos, .noText⟩
    else
      .ok (⟨⟨c.pos, c.pos + c.rest.length⟩, c.rest.trim⟩, c.advance c.rest.length)

/-! ## Integers -/

/-- The length of a sign at the start of a text. -/
def signLength : Text → Nat
  | [] => 0
  | b :: _ => if b == '+'.toUInt8 || b == '-'.toUInt8 then 1 else 0

/-- The bytes of words that follow an optional sign. -/
def digitsOf (s : Text) : Text :=
  (s.drop (signLength s)).takeWhile Text.isWord

/-- Reads an integer literal: an optional sign and all the bytes of words that follow it. -/
def int : Parser (Located Int) where
  label := ascii "integer"
  scan c :=
    let digits := digitsOf c.rest
    if digits.isEmpty then .error ⟨c.pos, .noInteger⟩
    else
      let length := signLength c.rest + digits.length
      match Literal.read (c.rest.take length) with
      | .ok v => .ok (⟨⟨c.pos, c.pos + length⟩, v⟩, c.advance length)
      | .error cause => .error ⟨c.pos, .badInteger (c.rest.take length) cause⟩

end Parser

end Microcode
