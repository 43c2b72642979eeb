import Microcode.Text.Basic

/-!
# Fields of a microprogram word

The signal processor executes 64-bit words that are made of 24 named fields. This module gives their
names, widths and places. Bits 48, 32 and 0 to 6 belong to no field.
-/

namespace Microcode

/-- The fields of a word, in the order in which a listing writes them. -/
inductive Field where
  /-- Temporary register to read. -/
  | tra
  /-- Write to a temporary register. -/
  | twt
  /-- Temporary register to write. -/
  | twa
  /-- Multiply the input instead of a temporary register. -/
  | xsel
  /-- Source of the factor. -/
  | ysel
  /-- Input selector. -/
  | ira
  /-- Commit a memory read to an input register. -/
  | iwt
  /-- Input register to commit to. -/
  | iwa
  /-- Address the table area. -/
  | table
  /-- Write to memory. -/
  | mwt
  /-- Read from memory. -/
  | mrd
  /-- Write to an output channel. -/
  | ewt
  /-- Output channel to write. -/
  | ewa
  /-- Load the address register. -/
  | adrl
  /-- Load the fraction register. -/
  | frcl
  /-- Shift mode. -/
  | shift
  /-- Load the factor register. -/
  | yrl
  /-- Subtract the second summand. -/
  | negb
  /-- Take zero as the second summand. -/
  | zero
  /-- Take the accumulator as the second summand. -/
  | bsel
  /-- Access memory without conversion of numbers. -/
  | nofl
  /-- Entry of the address table. -/
  | masa
  /-- Add the address register. -/
  | adreb
  /-- Take the next address. -/
  | nxadr
deriving DecidableEq, Repr

namespace Field

/-- All fields in their order. -/
def all : List Field :=
  [tra, twt, twa, xsel, ysel, ira, iwt, iwa, table, mwt, mrd, ewt, ewa, adrl, frcl, shift, yrl, negb,
   zero, bsel, nofl, masa, adreb, nxadr]

/-- The name of a field in listings. -/
def name : Field → String
  | tra => "TRA"
  | twt => "TWT"
  | twa => "TWA"
  | xsel => "XSEL"
  | ysel => "YSEL"
  | ira => "IRA"
  | iwt => "IWT"
  | iwa => "IWA"
  | table => "TABLE"
  | mwt => "MWT"
  | mrd => "MRD"
  | ewt => "EWT"
  | ewa => "EWA"
  | adrl => "ADRL"
  | frcl => "FRCL"
  | shift => "SHIFT"
  | yrl => "YRL"
  | negb => "NEGB"
  | zero => "ZERO"
  | bsel => "BSEL"
  | nofl => "NOFL"
  | masa => "MASA"
  | adreb => "ADREB"
  | nxadr => "NXADR"

/-- The number of bits of a field. -/
def width : Field → Nat
  | tra | twa => 7
  | ira | masa => 6
  | iwa => 5
  | ewa => 4
  | ysel | shift => 2
  | _ => 1

/-- The place of the lowest bit of a field. -/
def offset : Field → Nat
  | tra => 57
  | twt => 56
  | twa => 49
  | xsel => 47
  | ysel => 45
  | ira => 39
  | iwt => 38
  | iwa => 33
  | table => 31
  | mwt => 30
  | mrd => 29
  | ewt => 28
  | ewa => 24
  | adrl => 23
  | frcl => 22
  | shift => 20
  | yrl => 19
  | negb => 18
  | zero => 17
  | bsel => 16
  | nofl => 15
  | masa => 9
  | adreb => 8
  | nxadr => 7

/-- The largest value that a field holds. -/
def max (f : Field) : Nat :=
  (1 <<< f.width) - 1

/-- The bits of a field. -/
def mask (f : Field) : BitVec 64 :=
  BitVec.ofNat 64 f.max <<< f.offset

/-- The field at a place of the order. -/
def ofIndex? : Int → Option Field
  | .ofNat n => all[n]?
  | .negSucc _ => none

/-- The name of the field at a place of the order; a place outside the order is named by its number. -/
def nameAt (index : Int) : Text :=
  match ofIndex? index with
  | some f => ascii f.name
  | none => ascii "Field(" ++ Text.ofInt index ++ ascii ")"

/-- The field with a given name. -/
def ofName? (s : String) : Option Field :=
  all.find? (·.name == s)

/-! ## The layout -/

/-- No field is missing from the list of all fields. -/
@[simp] theorem mem_all (f : Field) : f ∈ all := by
  cases f <;> decide

/-- A field lies inside the word. -/
theorem offset_add_width_le (f : Field) : f.offset + f.width ≤ 64 := by
  cases f <;> decide

/-- Every field has at least one bit. -/
theorem width_pos (f : Field) : 0 < f.width := by
  cases f <;> decide

/-- Different fields have no bit in common: one of them ends before the other starts. -/
theorem disjoint {f g : Field} (h : f ≠ g) :
    f.offset + f.width ≤ g.offset ∨ g.offset + g.width ≤ f.offset := by
  cases f <;> cases g <;> first | exact absurd rfl h | decide

end Field

end Microcode
