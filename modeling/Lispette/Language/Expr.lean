import Lispette.Language.Operator
import Lispette.Number.Binary64
import Lispette.SyntaxError

/-!
# Expressions and programs

One type covers values and statements, since a statement may stand wherever a value may. Where a
construct could not be read, its syntax error stands in its place.
-/

namespace Lispette

/-- One call of a method chain. -/
structure ChainCall (α : Type) where
  target : α
  arguments : List α

/-- One case of a conditional. -/
structure Branch (α : Type) where
  condition : α
  body : List α

/-- The body of a function, closure, block or branch is a list of statements, of which the last
yields the value. The text of a string literal is kept as written, with its escapes. -/
inductive Expr where
  | number (value : Binary64)
  | string (text : String)
  | boolean (value : Bool)
  | nil
  | array (items : List Expr)
  | identifier (name : String)
  | unary (op : UnaryOperator) (operand : Expr)
  | binary (op : BinaryOperator) (left right : Expr)
  | call (callee : Expr) (arguments : List Expr)
  | chain (receiver : Expr) (calls : List (ChainCall Expr))
  | member (target key : Expr)
  | constant (name : String) (value : Expr)
  | function (name : String) (parameters : List String) (body : List Expr)
  | print (value : Expr)
  | block (statements : List Expr)
  | closure (parameters : List String) (body : List Expr)
  | cond (branches : List (Branch Expr)) (otherwise : Option (List Expr))
  | error (error : SyntaxError)

namespace Expr

/-- The name that a definition binds. -/
def declaredName? : Expr → Option String
  | constant name _ => some name
  | function name _ _ => some name
  | _ => none

def error? : Expr → Option SyntaxError
  | error e => some e
  | _ => none

def isError (e : Expr) : Bool := e.error?.isSome

end Expr

/-- The top-level statements of a source, in order. -/
structure Program where
  body : List Expr

namespace Program

/-- The syntax errors that stand among the top-level statements. -/
def errors (p : Program) : List SyntaxError := p.body.filterMap Expr.error?

end Program

end Lispette
