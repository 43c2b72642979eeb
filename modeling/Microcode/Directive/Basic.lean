import Microcode.Parser.Basic

/-!
# Directives

The seven kinds of lines that an effect is written in, as they are read. Indices are whatever integers
the line holds and brackets are recorded as they stand; whether the operands make sense is decided when
a directive becomes an instruction.
-/

namespace Microcode

/-! ## Operands -/

/-- An operand `kind:index`. -/
structure Indexed where
  kind : Text
  index : Int
deriving DecidableEq, Repr

/-- A memory address: an entry of the address table with its marks. -/
structure Address where
  index : Int
  /-- An opening bracket stands before it. -/
  opened : Bool
  /-- A plus sign asks for the next address. -/
  next : Bool
  /-- A closing bracket stands behind it. -/
  closed : Bool
  /-- The address register is added. -/
  adrs : Bool
deriving DecidableEq, Repr

/-- The second summand of a multiplication: the accumulator or a temporary register. -/
structure Summand where
  negated : Bool
  temp : Option (Located Int)
deriving DecidableEq, Repr

/-- The banks of input registers. -/
inductive Bank where
  | mems
  | mixer
  | cdda
deriving DecidableEq, Repr

namespace Bank

/-- The name of a bank in the source. -/
def name : Bank → String
  | mems => "mems"
  | mixer => "mixer"
  | cdda => "cdda"

/-- The banks in the order in which they are tried. -/
def all : List Bank := [mems, mixer, cdda]

end Bank

/-- Where an output goes; the type of channels is `ι`. -/
inductive Output (ι : Type) where
  /-- The factor register. -/
  | yreg
  /-- The address register, from the accumulator. -/
  | adrsShifted
  /-- The address register, from the input. -/
  | adrs
  /-- A channel of the mixer. -/
  | mixer (channel : ι)
deriving DecidableEq, Repr

namespace Output

/-- The name of a target in the source. -/
def name {ι : Type} : Output ι → String
  | yreg => "yreg"
  | adrsShifted => "adrs/s"
  | adrs => "adrs"
  | mixer _ => "mixer"

/-- The index of a target; only a mixer channel has one of its own. -/
def index : Output Int → Int
  | mixer channel => channel
  | _ => 0

end Output

/-- What is multiplied; the type of temporary registers is `ι`. -/
inductive Multiplicand (ι : Type) where
  | input
  | temp (register : ι)
deriving DecidableEq, Repr

/-- What it is multiplied by; the type of coefficients is `κ`. -/
inductive Factor (κ : Type) where
  /-- The low part of the factor register. -/
  | yregLow
  /-- The factor register. -/
  | yreg
  /-- The shifted accumulator. -/
  | shifted
  /-- A coefficient of the step. -/
  | coefficient (value : κ)
deriving DecidableEq, Repr

/-- The shift modes. -/
inductive ShiftMode where
  | sat
  | sat2
  | trim
  | trim2
deriving DecidableEq, Repr

namespace ShiftMode

/-- The name of a mode in the source. -/
def name : ShiftMode → String
  | sat => "sat"
  | sat2 => "sat2"
  | trim => "trim"
  | trim2 => "trim2"

/-- The modes in the order in which they are tried. -/
def all : List ShiftMode := [sat, sat2, trim, trim2]

end ShiftMode

/-- Where a store goes. -/
inductive Destination where
  | temp (index : Int)
  | memory (address : Address)
deriving DecidableEq, Repr

/-- The kinds of operands that a directive can be found to lack. -/
inductive OperandKind where
  | temp
  | int
  | address
  /-- A reference to an address. -/
  | addressRef
  /-- Nothing in particular. -/
  | nothing
deriving DecidableEq, Repr

namespace OperandKind

/-- The name of a kind of operand in messages. -/
def label : OperandKind → String
  | temp => "ast.Temp"
  | int => "ast.Int"
  | address => "ast.Addr"
  | addressRef => "*ast.Addr"
  | nothing => "<nil>"

/-- The failure that an operand of this kind does not stand where it should. -/
def missing (k : OperandKind) : Failure :=
  .missing (ascii k.label)

end OperandKind

/-! ## Lines -/

/-- A line of an effect as it is read. -/
inductive Directive where
  /-- An entry of the address table. -/
  | madrs (index : Int) (value : Text)
  /-- Selects the input. -/
  | input (bank : Bank) (index : Int)
  /-- Sends the result somewhere. -/
  | output (target : Output Int)
  /-- Multiplies and accumulates. -/
  | mac (multiplicand : Located (Multiplicand Int)) (factor : Located (Factor Int))
      (summand : Option (Located Summand))
  /-- Sets the shift mode. -/
  | smode (mode : ShiftMode)
  /-- Stores the accumulator. -/
  | store (noFloat : Bool) (destination : Located Destination)
  /-- Loads an input register from memory. -/
  | load (noFloat : Bool) (address : Located Address) (register : Int)
deriving DecidableEq, Repr

end Microcode
