import Microcode.Directive.Basic
import Microcode.Text.Basic

/-!
# Checked operands

The operands of a directive are arbitrary integers. Those of an instruction are bounded by their types,
so that they fit the fields that they are written to. What a directive may get wrong is a `Rejection`,
and the order of the checks decides which one is reported.
-/

namespace Microcode

/-! ## Limits -/

/-- The number of temporary registers. -/
abbrev tempCount : Nat := 128

/-- The number of entries of the address table. -/
abbrev masaCount : Nat := 64

/-- The number of input registers that memory is loaded to. -/
abbrev memsCount : Nat := 32

/-- The number of mixer channels. -/
abbrev mixerCount : Nat := 16

/-- The number of disc audio channels. -/
abbrev cddaCount : Nat := 2

/-- The smallest coefficient. -/
def coefMin : Int := -4096

/-- The largest coefficient. -/
def coefMax : Int := 4095

/-- The inputs: the registers loaded from memory, then the mixer, then disc audio. -/
abbrev Input := Fin (memsCount + mixerCount + cddaCount)

/-- A coefficient of a step. -/
abbrev Coefficient := { c : Int // coefMin ≤ c ∧ c ≤ coefMax }

/-! ## Rejections -/

/-- Why a directive is not an instruction. -/
inductive Rejection where
  /-- An index is not below the number of things of its kind. -/
  | index (kind : String) (index : Int) (limit : Nat)
  /-- An operand of a multiplication is rejected. -/
  | operand (role : String) (cause : Rejection)
  /-- A coefficient is out of range. -/
  | coefficient (value : Int)
  /-- Two temporary registers are needed at once. -/
  | conflict (multiplicand summand : Nat)
  /-- Only one of the brackets of an address is there. -/
  | unbalanced
  /-- A store without conversion goes to a temporary register. -/
  | needsMemory
deriving DecidableEq, Repr

namespace Rejection

/-- The wording of a rejection. -/
def message : Rejection → Text
  | index kind i limit =>
    ascii kind ++ ascii " index " ++ Text.ofInt i ++ ascii " out of range [0, " ++ Text.ofNat limit ++
      ascii ")"
  | operand role cause => ascii role ++ ascii ": " ++ cause.message
  | coefficient value =>
    ascii "coefficient " ++ Text.ofInt value ++ ascii " out of range [" ++ Text.ofInt coefMin ++
      ascii ", " ++ Text.ofInt coefMax ++ ascii "]"
  | conflict multiplicand summand =>
    ascii "conflicting temp registers: temp:" ++ Text.ofNat multiplicand ++ ascii " and temp:" ++
      Text.ofNat summand
  | unbalanced => ascii "unbalanced brackets"
  | needsMemory => ascii "STF needs a memory address"

end Rejection

/-! ## Checked operands -/

/-- An index below a limit. -/
def checkIndex (kind : String) (limit : Nat) (i : Int) : Except Rejection (Fin limit) :=
  if h : 0 ≤ i ∧ i < limit then .ok ⟨i.toNat, by omega⟩ else .error (.index kind i limit)

/-- A temporary register. -/
def checkTemp (i : Int) : Except Rejection (Fin tempCount) :=
  checkIndex "temp" tempCount i

/-- A memory access. -/
structure Access where
  entry : Fin masaCount
  table : Bool
  next : Bool
  adrs : Bool
  noFloat : Bool
deriving DecidableEq, Repr

/-- Checks an address: its brackets first, then its index. -/
def Access.ofAddress (noFloat : Bool) (a : Address) : Except Rejection Access := do
  if a.opened ≠ a.closed then throw .unbalanced
  let entry ← checkIndex "madrs" masaCount a.index
  return ⟨entry, a.opened, a.next, a.adrs, noFloat⟩

/-- Checks a factor. -/
def Factor.check : Factor Int → Except Rejection (Factor Coefficient)
  | .yregLow => .ok .yregLow
  | .yreg => .ok .yreg
  | .shifted => .ok .shifted
  | .coefficient c =>
    if h : coefMin ≤ c ∧ c ≤ coefMax then .ok (.coefficient ⟨c, h⟩) else .error (.coefficient c)

/-- Checks the target of an output. -/
def Output.check : Output Int → Except Rejection (Output (Fin mixerCount))
  | .yreg => .ok .yreg
  | .adrsShifted => .ok .adrsShifted
  | .adrs => .ok .adrs
  | .mixer i => .mixer <$> checkIndex "mixer" mixerCount i

theorem memsCount_le : memsCount ≤ memsCount + mixerCount + cddaCount := by
  decide

theorem memsCount_add_lt (k : Fin mixerCount) : memsCount + k < memsCount + mixerCount + cddaCount := by
  simp only [cddaCount]
  omega

theorem memsCount_add_mixerCount_add_lt (k : Fin cddaCount) :
    memsCount + mixerCount + k < memsCount + mixerCount + cddaCount := by
  omega

/-- Checks an index of an input bank and finds the input. -/
def Bank.input (bank : Bank) (i : Int) : Except Rejection Input :=
  match bank with
  | .mems => Fin.castLE memsCount_le <$> checkIndex bank.name memsCount i
  | .mixer =>
    (fun k : Fin mixerCount => ⟨memsCount + k, memsCount_add_lt k⟩) <$>
      checkIndex bank.name mixerCount i
  | .cdda =>
    (fun k : Fin cddaCount => ⟨memsCount + mixerCount + k, memsCount_add_mixerCount_add_lt k⟩) <$>
      checkIndex bank.name cddaCount i

/-- The second summand of a multiplication. -/
inductive Addend where
  | zero
  | accumulator
  | temp
deriving DecidableEq, Repr

/-- A multiplication. Multiplicand and addend share the one temporary register that a step can read;
it is zero if neither of them is a temporary register. -/
structure Mac where
  fromInput : Bool
  factor : Factor Coefficient
  addend : Addend
  negated : Bool
  register : Fin tempCount
deriving DecidableEq, Repr

/-- The temporary register of a multiplicand. -/
def Multiplicand.register : Multiplicand Int → Except Rejection (Option (Fin tempCount))
  | .input => .ok none
  | .temp i => (some <$> checkTemp i).mapError (.operand "source")

/-- The temporary register of a multiplication that reads `r` as its summand. -/
def sharedRegister (source : Option (Fin tempCount)) (r : Fin tempCount) :
    Except Rejection (Fin tempCount) :=
  match source with
  | none => .ok r
  | some s => if s = r then .ok r else .error (.conflict s r)

/-- Checks a multiplication: multiplicand, factor, summand, and then that one register is enough. -/
def Mac.ofOperands (x : Multiplicand Int) (y : Factor Int) (b : Option Summand) :
    Except Rejection Mac := do
  let source ← x.register
  let factor ← y.check
  let fromInput := source.isNone
  match b with
  | none => return ⟨fromInput, factor, .zero, false, source.getD 0⟩
  | some ⟨negated, none⟩ => return ⟨fromInput, factor, .accumulator, negated, source.getD 0⟩
  | some ⟨negated, some t⟩ =>
    let r ← (checkTemp t.value).mapError (.operand "accumulator")
    let register ← sharedRegister source r
    return ⟨fromInput, factor, .temp, negated, register⟩

end Microcode
