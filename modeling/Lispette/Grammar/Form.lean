import Lispette.Grammar.Atom
import Lispette.Parser.Repetition

/-!
# Forms

Every form of the language in terms of parsers for its parts. A form that has parts begins with a
character of its own, so its parts are read from strictly less source. Once it is clear which form
is being read, the parser is committed to it: what is then missing is a fault.
-/

namespace Lispette

/-- A grammar together with parsers for the parts of its forms. -/
structure Parts extends Grammar where
  statement : Parser Expr
  expression : Parser Expr
  member : Parser Expr

namespace Form

open Lispette.Parser Grammar

variable (parts : Parts)

/-! ## Lists and bodies -/

/-- Expressions separated by layout, possibly none. -/
def arguments : Parser (List Expr) := many do
  layout
  parts.expression

def array : Parser Expr := parts.rule .array do
  let start ← here
  char '['
  let items ← arguments parts
  layout
  expect start .arrayEnd (char ']')
  return .array items

def block : Parser (List Expr) := parts.rule .block do
  let start ← here
  char '\x7b'
  let statements ← many parts.statement
  layout
  expect start .blockEnd (char '\x7d')
  return statements

def blockExpression : Parser Expr := .block <$> block parts

/-- A block, or a single expression in place of one. -/
def body : Parser (List Expr) := block parts <|> List.singleton <$> parts.expression

/-! ## Conditionals and closures -/

def branch : Parser (Branch Expr) := do
  let start ← here
  layout
  let condition ← parts.expression
  layout
  let body ← expect start .branchBody (body parts)
  return { condition, body }

def elseBranch : Parser (List Expr) := do
  let start ← here
  layout
  keyword Keyword.otherwise.word
  layout
  expect start .elseBody (body parts)

def cond : Parser Expr := parts.rule .cond do
  let start ← here
  char '('
  layout
  keyword Keyword.cond.word
  let branches ← expect start .condBranch (oneOrMore (branch parts))
  let otherwise ← optional (elseBranch parts)
  layout
  expect start .condEnd (char ')')
  return .cond branches otherwise

def closure : Parser Expr := parts.rule .closure do
  let start ← here
  char '|'
  layout
  let parameters ← many (do let parameter ← name; layout; return parameter)
  expect start .closureParametersEnd (char '|')
  layout
  let body ← expect start .closureBody (body parts)
  return .closure parameters body

/-! ## Operations and calls -/

def binaryCall : Parser Expr := parts.rule .binaryCall do
  let start ← here
  char '('
  layout
  let op ← binaryOperator
  layout
  let left ← expect start .leftOperand parts.expression
  layout
  let right ← expect start .rightOperand parts.expression
  layout
  expect start .binaryEnd (char ')')
  return .binary op left right

/-- The callee and arguments of a parenthesised call. -/
def application : Parser (ChainCall Expr) := do
  let start ← here
  char '('
  layout
  let target ← parts.member
  let arguments ← arguments parts
  layout
  expect start .callEnd (char ')')
  return { target, arguments }

def call : Parser Expr := parts.rule .call do
  let application ← application parts
  return .call application.target application.arguments

/-- A call in a chain; without arguments it needs no parentheses. -/
def chainCall : Parser (ChainCall Expr) :=
  application parts <|> do return { target := ← parts.member, arguments := [] }

def methodChain : Parser Expr := parts.rule .methodChain do
  let start ← here
  char '('
  layout
  literal "~>"
  layout
  let receiver ← expect start .receiver parts.expression
  let calls ← many do
    layout
    literal "~>"
    layout
    expect start .chainCall (chainCall parts)
  layout
  expect start .chainEnd (char ')')
  return .chain receiver calls

/-! ## Expressions -/

/-- The forms that an expression can have besides operators and member access, in the order in which
they are tried. -/
def primaryForms : List (Parser Expr) :=
  [parts.number, parts.string, parts.boolean, parts.nil, array parts, parts.identifier, cond parts,
    closure parts, binaryCall parts, methodChain parts, blockExpression parts, call parts]

def primary : Parser Expr := choice (primaryForms parts)

/-- Keys bind to the left: a key selects from everything before it. -/
def member : Parser Expr := parts.rule .member do
  let start ← here
  let target ← primary parts
  let keys ← many do
    char '/'
    expect start .memberKey (primary parts)
  return keys.foldl .member target

/-- An operator in front of an expression. -/
def applied : Parser Expr := do
  let op ← unaryOperator
  let operand ← parts.expression
  return .unary op operand

def unary : Parser Expr := parts.rule .unary (applied parts <|> member parts)

/-! ## Statements -/

/-- What a definition defines: a function with its parameters, or a plain name. -/
inductive Head where
  | function (name : String) (parameters : List String)
  | constant (name : String)

def signature : Parser Head := do
  let start ← here
  char '('
  layout
  let functionName ← name
  let parameters ← many (do layout; name)
  layout
  expect start .parametersEnd (char ')')
  return .function functionName parameters

def head : Parser Head := signature <|> .constant <$> name

/-- A function whose only statement is a block has the statements of that block for its body. -/
def functionBody : List Expr → List Expr
  | [.block statements] => statements
  | statements => statements

/-- What follows the head of a definition that begins at `start`. -/
def defined (start : Cursor) : Head → Parser Expr
  | .function name parameters => do
    let statements ← expect start .functionBody (oneOrMore parts.statement)
    return .function name parameters (functionBody statements)
  | .constant name => do
    let value ← expect start .definedValue parts.expression
    return .constant name value

def definition : Parser Expr := parts.rule .definition do
  let start ← here
  char '('
  layout
  keyword Keyword.define.word
  layout
  let head ← expect start .definedName head
  layout
  let declaration ← defined parts start head
  layout
  expect start .definitionEnd (char ')')
  return declaration

def print : Parser Expr := parts.rule .print do
  let start ← here
  char '('
  layout
  keyword Keyword.print.word
  layout
  let value ← expect start .printedValue parts.expression
  layout
  expect start .printEnd (char ')')
  return .print value

def statement : Parser Expr := parts.rule .statement do
  layout
  let form ← definition parts <|> print parts <|> unary parts
  layout
  return form

end Form

end Lispette
