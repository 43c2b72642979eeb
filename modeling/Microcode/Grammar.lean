import Microcode.Directive.Grammar

/-!
# Grammars as data

A `Grammar` describes a parser that is put together from tokens, operands, directives and combinators;
`Grammar.parser` is the parser that it describes. What such a parser reads is a `Node`.
-/

namespace Microcode

/-- What a grammar reads. -/
inductive Node where
  /-- Nothing. -/
  | none
  /-- The bytes of a constant. -/
  | const (text : Text)
  /-- One node after another. -/
  | list (items : List Node)
  | keyword (name : Located Text)
  | int (value : Located Int)
  | text (value : Located Text)
  | indexed (operand : Located Indexed)
  | temp (index : Located Int)
  | address (address : Located Address)
  | summand (summand : Located Summand)
  | directive (directive : Located Directive)
deriving Repr

/-- The description of a parser. -/
inductive Grammar where
  /-- Reads nothing. -/
  | none
  /-- Reads all the text that is left. -/
  | rest
  | int
  | temp
  | address
  | summand
  | directive (kind : DirectiveKind)
  | const (text : Text)
  | keyword (text : Text)
  | indexed (kind : Text)
  | optional (inner : Grammar)
  | spaced (separators : ByteSet) (inner : Grammar)
  | wrapped (opening inner closing : Grammar)
  | all (parts : List Grammar)
  | any (alternatives : List Grammar)
deriving Repr

namespace Grammar

mutual

/-- The parser that a grammar describes. -/
def parser : Grammar → Parser Node
  | none => Parser.nothing .none
  | rest => Parser.rest.map .text
  | int => Parser.int.map .int
  | temp => Parser.temp.map .temp
  | address => Parser.address.map .address
  | summand => Parser.summand.map .summand
  | directive kind => kind.parser.map .directive
  | const text => (Parser.const text).map .const
  | keyword text => (Parser.keyword text).map .keyword
  | indexed kind => (Parser.indexed kind).map .indexed
  | optional inner => (Parser.optional inner.parser).map fun node => node.getD .none
  | spaced separators inner => Parser.spaced separators inner.parser
  | wrapped opening inner closing => Parser.wrapped opening.parser inner.parser closing.parser
  | all parts => (Parser.all (parsers parts)).map .list
  | any alternatives => Parser.oneOf (parsers alternatives)

/-- The parsers that a list of grammars describes. -/
def parsers : List Grammar → List (Parser Node)
  | [] => []
  | g :: gs => g.parser :: parsers gs

end

end Grammar

end Microcode
