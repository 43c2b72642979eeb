import Microcode.Field

/-!
# Microprogram words

A word is 64 bits, seen through the fields of `Field`. Reading a field gives a number below `2 ^ width`;
writing takes any number and keeps its low bits. Bits that belong to no field are carried along.
-/

namespace Microcode

/-- A word of the microprogram. -/
@[ext]
structure Word where
  bits : BitVec 64
deriving DecidableEq, Repr

namespace Word

/-- The word without any bit, which does nothing. -/
instance : OfNat Word 0 := ⟨⟨0⟩⟩

instance : Inhabited Word := ⟨0⟩

/-- The union of two words. -/
instance : OrOp Word := ⟨fun v w => ⟨v.bits ||| w.bits⟩⟩

@[simp] theorem bits_zero : (0 : Word).bits = 0 := rfl

@[simp] theorem bits_or (v w : Word) : (v ||| w).bits = v.bits ||| w.bits := rfl

/-! ## One field -/

/-- The value of a field. -/
def get (w : Word) (f : Field) : Nat :=
  ((w.bits &&& f.mask) >>> f.offset).toNat

/-- Replaces the value of a field by the low bits of a number. -/
def set (w : Word) (f : Field) (v : Nat) : Word :=
  ⟨(w.bits &&& ~~~f.mask) ||| ((BitVec.ofNat 64 v <<< f.offset) &&& f.mask)⟩

/-- Whether a field has a bit set. -/
def has (w : Word) (f : Field) : Bool :=
  w.bits &&& f.mask != 0

/-! ## Several fields -/

/-- The bits of a list of fields. -/
def maskOf (fs : List Field) : BitVec 64 :=
  fs.foldr (fun f m => f.mask ||| m) 0

/-- Empties the given fields. -/
def clear (w : Word) (fs : List Field) : Word :=
  ⟨w.bits &&& ~~~maskOf fs⟩

/-- Keeps the given fields and empties all else. -/
def pick (w : Word) (fs : List Field) : Word :=
  ⟨w.bits &&& maskOf fs⟩

/-- The word with the value one in each of the given fields. -/
def flags (fs : List Field) : Word :=
  fs.foldl (fun w f => w.set f 1) 0

/-- The bits that belong to some field. -/
def used : Word :=
  ⟨maskOf Field.all⟩

/-- The fields that are not zero, in their order, with their values. -/
def entries (w : Word) : List (Field × Nat) :=
  (Field.all.map fun f => (f, w.get f)).filter fun e => e.2 != 0

@[simp] theorem maskOf_nil : maskOf [] = 0 := rfl

@[simp] theorem maskOf_cons (f : Field) (fs : List Field) : maskOf (f :: fs) = f.mask ||| maskOf fs :=
  rfl

/-! ## Text -/

/-- A field with its value as a listing shows it; the value one is left out. -/
def entryText : Field × Nat → Text
  | (f, v) => ascii " " ++ ascii f.name ++ (if v = 1 then [] else ascii ":" ++ Text.ofNat v)

/-- The word as a listing shows it, each field after a space. -/
def render (w : Word) : Text :=
  w.entries.flatMap entryText

end Word

end Microcode
