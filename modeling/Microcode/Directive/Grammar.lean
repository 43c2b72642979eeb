import Microcode.Directive.Basic
import Microcode.Parser.Line

/-!
# The grammar of directives

Tokens may be separated by spaces and tabs. Every parser of this module states its line of the grammar
in its doc comment, with optional parts in brackets and alternatives separated by bars.
-/

namespace Microcode

namespace Parser

/-- Reads an ASCII constant. -/
def mark (s : String) : Parser Text :=
  const (ascii s)

/-- Reads an ASCII keyword. -/
def word (s : String) : Parser (Located Text) :=
  keyword (ascii s)

/-- Reads an ASCII keyword that stands for a value. -/
def wordFor {α : Type} (s : String) (a : α) : Parser (Located α) :=
  (word s).map (Located.map fun _ => a)

/-! ## Operands -/

/-- An indexed operand is `kind : integer`. -/
def indexed (kind : Text) : Parser (Located Indexed) where
  label := kind ++ ascii ":N"
  scan := located do
    let _ ← (keyword kind).scan
    let _ ← token (mark ":")
    let index ← token int
    return ⟨kind, index.value⟩

/-- A temporary register is `"[" temp : integer "]"`. -/
def temp : Parser (Located Int) where
  label := ascii "[temp:N]"
  scan := located do
    let operand ← (wrapped (mark "[") (spaced .gaps (indexed (ascii "temp")))
      (spaced .gaps (mark "]"))).scan
    return operand.value.index

/-- An address is `["["] madrs : integer ["+"] ["]"] [/s]`. -/
def address : Parser (Located Address) where
  label := ascii "madrs:N"
  scan := located do
    let opening ← (optional (mark "[")).scan
    let operand ← token (indexed (ascii "madrs"))
    let plus ← token (optional (mark "+"))
    let closing ← token (optional (mark "]"))
    let adrs ← token (optional (word "/s"))
    return ⟨operand.value.index, opening.isSome, plus.isSome, closing.isSome, adrs.isSome⟩

/-- A summand is `["+" | "-"] (acc | temporary register)`. -/
def summand : Parser (Located Summand) where
  label := ascii "acc or [temp:N]"
  scan := located do
    let sign ← (optional (oneOf [(mark "+").map fun _ => false, (mark "-").map fun _ => true])).scan
    let register ← token (oneOf [(word "acc").map fun _ => none, temp.map some])
    return ⟨sign.getD false, register⟩

/-- A register of an input bank is `bank : integer`. -/
def bank (b : Bank) : Parser (Bank × Int) :=
  (indexed (ascii b.name)).map fun operand => (b, operand.value.index)

/-- A target of an output is `yreg | adrs/s | adrs | mixer : integer`. -/
def outputTarget : Parser (Output Int) :=
  oneOf [(word "yreg").map fun _ => .yreg, (word "adrs/s").map fun _ => .adrsShifted,
    (word "adrs").map fun _ => .adrs,
    (indexed (ascii "mixer")).map fun operand => .mixer operand.value.index]

/-- A multiplicand is `input | temporary register`. -/
def multiplicand : Parser (Located (Multiplicand Int)) :=
  oneOf [wordFor "input" .input, temp.map (Located.map .temp)]

/-- A factor is `yreg/l | yreg | shifted | integer`. -/
def factor : Parser (Located (Factor Int)) :=
  oneOf [wordFor "yreg/l" .yregLow, wordFor "yreg" .yreg, wordFor "shifted" .shifted,
    int.map (Located.map .coefficient)]

/-- A destination is `temporary register | address`. -/
def destination : Parser (Located Destination) :=
  oneOf [temp.map (Located.map .temp), address.map (Located.map .memory)]

/-- An operation code in two spellings, the first of which asks for no conversion of numbers. -/
def opcode (plain noFloat : String) : Parser Bool :=
  oneOf [(word noFloat).map fun _ => true, (word plain).map fun _ => false]

end Parser

/-! ## Directives -/

/-- The kinds of directives. -/
inductive DirectiveKind where
  | madrs
  | input
  | output
  | mac
  | smode
  | store
  | load
deriving DecidableEq, Repr

namespace DirectiveKind

open Microcode.Parser

/-- The kinds in the order in which a line is tried. -/
def all : List DirectiveKind := [madrs, input, output, mac, smode, store, load]

/-- The name of a kind in messages. -/
def label : DirectiveKind → String
  | madrs => "parse.Madrs"
  | input => "parse.Input"
  | output => "parse.Output"
  | mac => "parse.Mac"
  | smode => "parse.Smode"
  | store => "parse.Store"
  | load => "parse.Load"

/-- An entry of the address table is `MADRS "[" integer "]" "=" text`. -/
def madrsScan : Scan Directive := do
  let _ ← (mark "MADRS").scan
  let _ ← token (mark "[")
  let index ← token int
  let _ ← token (mark "]")
  let _ ← token (mark "=")
  let value ← token rest
  return .madrs index.value value.value

/-- An input selection is `INPUT (mems | mixer | cdda) : integer`. -/
def inputScan : Scan Directive := do
  let _ ← (word "INPUT").scan
  let (b, index) ← token (oneOf (Bank.all.map bank))
  return .input b index

/-- An output is `OUTPUT target`. -/
def outputScan : Scan Directive := do
  let _ ← (word "OUTPUT").scan
  let target ← token outputTarget
  return .output target

/-- A multiplication is `MAC multiplicand "," factor ["," summand]`. -/
def macScan : Scan Directive := do
  let _ ← (word "MAC").scan
  let x ← token multiplicand
  let _ ← token (mark ",")
  let y ← token factor
  let b ← token (optional (preceded (mark ",") (spaced .gaps summand)))
  return .mac x y b

/-- A shift mode is `SMODE (sat | sat2 | trim | trim2)`. -/
def smodeScan : Scan Directive := do
  let _ ← (word "SMODE").scan
  let mode ← token (oneOf (ShiftMode.all.map fun m => (word m.name).map fun _ => m))
  return .smode mode

/-- A store is `(STF | ST) destination`. -/
def storeScan : Scan Directive := do
  let noFloat ← (opcode "ST" "STF").scan
  let target ← token destination
  return .store noFloat target

/-- A load is `(LDF | LD) address "," mems : integer`. -/
def loadScan : Scan Directive := do
  let noFloat ← (opcode "LD" "LDF").scan
  let source ← token address
  let _ ← token (mark ",")
  let register ← token (indexed (ascii "mems"))
  return .load noFloat source register.value.index

/-- The scan of each kind. -/
def scan : DirectiveKind → Scan Directive
  | madrs => madrsScan
  | input => inputScan
  | output => outputScan
  | mac => macScan
  | smode => smodeScan
  | store => storeScan
  | load => loadScan

/-- The parser of each kind. -/
def parser (k : DirectiveKind) : Parser (Located Directive) where
  label := ascii k.label
  scan := located k.scan

end DirectiveKind

/-- Reads a line as the first of the given kinds that accepts it. -/
def Directive.read? (kinds : List DirectiveKind) (line : Text) : Option Directive :=
  kinds.findSome? fun k => ((k.parser.readLine line).map (·.value)).toOption

end Microcode
