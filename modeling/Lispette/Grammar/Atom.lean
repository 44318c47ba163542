import Lispette.Grammar.Basic
import Lispette.Grammar.Fault
import Lispette.Language.Expr
import Lispette.Language.Keyword
import Lispette.Number.Numeral
import Lispette.Parser.Text

/-!
# Names, literals and operators

The rules of the grammar that have no parts of their own.
-/

namespace Lispette.Grammar

open Lispette.Parser

/-- A name that is not a reserved word. -/
def name : Parser String :=
  filterMap
    (fun text ↦
      let word := String.ofList text
      if isReserved word then none else some word)
    (lexeme Text.nameWidth)

def identifier (g : Grammar) : Parser Expr := g.rule .identifier (.identifier <$> name)

/-- A numeral that is too large for a finite number does not match. -/
def number (g : Grammar) : Parser Expr :=
  g.rule .number <| filterMap
    (fun text ↦
      let value := Binary64.ofDecimal false (Decimal.ofNumeral text)
      if value.isFinite then some (.number value) else none)
    (lexeme Text.numeralWidth)

/-- A string literal ends on the line on which it begins. -/
def string (g : Grammar) : Parser Expr := g.rule .string do
  let start ← here
  char '"'
  let text ← taking Text.stringWidth
  expect start .stringEnd (char '"')
  return .string (String.ofList text)

def boolean (g : Grammar) : Parser Expr :=
  g.rule .boolean <|
    (do keyword "true"; return .boolean true) <|> (do keyword "false"; return .boolean false)

def nil (g : Grammar) : Parser Expr := g.rule .nil do
  keyword Keyword.nil.word
  return .nil

/-- A symbol must be followed by white space, one character of which it consumes; a word must not be
followed by a further character of a name. -/
def spelling (op : BinaryOperator) : Parser Unit :=
  if op.isWord then keyword op.symbol
  else do
    literal op.symbol
    discard (satisfy Text.isSpace)

def binaryOperator : Parser BinaryOperator :=
  choice (BinaryOperator.all.map fun op ↦ do spelling op; return op)

def unaryOperator : Parser UnaryOperator :=
  choice (UnaryOperator.all.map fun op ↦ do char op.symbol; return op)

end Lispette.Grammar
