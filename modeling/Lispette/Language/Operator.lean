/-!
# Operators

The operators with their spellings. Binary operators are listed so that no spelling comes after one
that it starts with; words come last.
-/

namespace Lispette

inductive BinaryOperator where
  | add | sub | mul | div | rem
  | bitAnd | bitOr | bitXor | shl | shr | ushr
  | eq | notEq | lt | ltEq | gt | gtEq
  | and | or
deriving DecidableEq, Repr

namespace BinaryOperator

/-- Every operator, in the order in which spellings are tried. -/
def all : List BinaryOperator :=
  [ushr, shr, shl, gtEq, ltEq, notEq, gt, lt, eq, add, sub, mul, div, rem, bitAnd, bitOr, bitXor,
    and, or]

def symbol : BinaryOperator → String
  | add => "+"
  | sub => "-"
  | mul => "*"
  | div => "/"
  | rem => "%"
  | bitAnd => "&"
  | bitOr => "|"
  | bitXor => "^"
  | shl => "<<"
  | shr => ">>"
  | ushr => ">>>"
  | eq => "="
  | notEq => "!="
  | lt => "<"
  | ltEq => "<="
  | gt => ">"
  | gtEq => ">="
  | and => "and"
  | or => "or"

/-- Spelled as a word, which ends where a name would end. -/
def isWord : BinaryOperator → Bool
  | and | or => true
  | _ => false

def name : BinaryOperator → String
  | add => "Add"
  | sub => "Sub"
  | mul => "Mul"
  | div => "Div"
  | rem => "Rem"
  | bitAnd => "BitAnd"
  | bitOr => "BitOr"
  | bitXor => "BitXor"
  | shl => "Shl"
  | shr => "Shr"
  | ushr => "UShr"
  | eq => "Eq"
  | notEq => "NotEq"
  | lt => "Lt"
  | ltEq => "LtEq"
  | gt => "Gt"
  | gtEq => "GtEq"
  | and => "And"
  | or => "Or"

theorem mem_all (op : BinaryOperator) : op ∈ all := by cases op <;> decide

end BinaryOperator

inductive UnaryOperator where
  | not | negate | bitNot
deriving DecidableEq, Repr

namespace UnaryOperator

def all : List UnaryOperator := [not, negate, bitNot]

def symbol : UnaryOperator → Char
  | not => '!'
  | negate => '-'
  | bitNot => '~'

def name : UnaryOperator → String
  | not => "Not"
  | negate => "Negate"
  | bitNot => "BitNot"

theorem mem_all (op : UnaryOperator) : op ∈ all := by cases op <;> decide

end UnaryOperator

end Lispette
