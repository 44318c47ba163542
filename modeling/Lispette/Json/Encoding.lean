import Lispette.Json.Basic
import Lispette.Language.Expr

/-!
# Programs as data

An expression becomes an object whose first member names its kind, followed by its parts in a fixed
order.
-/

namespace Lispette

def SyntaxError.members (e : SyntaxError) : List (String × Json) :=
  [("message", .string e.message), ("line", .natural e.line), ("start", .natural e.start),
    ("end", .natural e.stop)]

def SyntaxError.toJson (e : SyntaxError) : Json := .object e.members

namespace Json

def names (parameters : List String) : Json := .array (parameters.map .string)

def ofKind (kind : String) (members : List (String × Json)) : Json :=
  .object (("kind", .string kind) :: members)

end Json

namespace Expr

open Json

mutual

def toJson : Expr → Json
  | number value => ofKind "Number" [("value", .number value)]
  | string text => ofKind "String" [("value", .string text)]
  | boolean value => ofKind "Boolean" [("value", .boolean value)]
  | nil => ofKind "Nil" []
  | array items => ofKind "Array" [("items", .array (toJsons items))]
  | identifier name => ofKind "Identifier" [("name", .string name)]
  | unary op operand => ofKind "UnaryOp" [("op", .string op.name), ("operand", operand.toJson)]
  | binary op left right =>
    ofKind "BinaryOp" [("op", .string op.name), ("left", left.toJson), ("right", right.toJson)]
  | call callee arguments =>
    ofKind "Call" [("callee", callee.toJson), ("args", .array (toJsons arguments))]
  | chain receiver calls =>
    ofKind "MethodCallChain" [("receiver", receiver.toJson), ("calls", .array (callsToJson calls))]
  | member target key => ofKind "Member" [("target", target.toJson), ("key", key.toJson)]
  | constant name value =>
    ofKind "VariableDecl" [("name", .string name), ("value", value.toJson)]
  | function name parameters body =>
    ofKind "FunctionDecl"
      [("name", .string name), ("params", names parameters), ("body", bodyToJson body)]
  | print value => ofKind "Print" [("value", value.toJson)]
  | block statements => ofKind "Block" [("statements", .array (toJsons statements))]
  | closure parameters body =>
    ofKind "Function" [("params", names parameters), ("body", bodyToJson body)]
  | cond branches otherwise =>
    ofKind "Cond"
      [("branches", .array (branchesToJson branches)), ("else_body", elseToJson otherwise)]
  | error e => ofKind "ParseError" e.members

def toJsons : List Expr → List Json
  | [] => []
  | e :: es => e.toJson :: toJsons es

def bodyToJson (body : List Expr) : Json := .object [("statements", .array (toJsons body))]

def callsToJson : List (ChainCall Expr) → List Json
  | [] => []
  | ⟨target, arguments⟩ :: calls =>
    .object [("target", target.toJson), ("args", .array (toJsons arguments))] :: callsToJson calls

def branchesToJson : List (Branch Expr) → List Json
  | [] => []
  | ⟨condition, body⟩ :: branches =>
    .object [("condition", condition.toJson), ("body", bodyToJson body)] :: branchesToJson branches

def elseToJson : Option (List Expr) → Json
  | none => .null
  | some body => bodyToJson body

end

end Expr

namespace Program

def toJson (p : Program) : Json := .object [("body", .array (Expr.toJsons p.body))]

/-- The data of a program that may be missing. -/
def optionToJson : Option Program → Json
  | none => .null
  | some p => p.toJson

end Program

end Lispette
