import Lispette.JavaScript.Code
import Lispette.Language.Expr
import Lispette.Number.Numeral

/-!
# Code generation

Every expression as JavaScript text. Blocks and conditionals become functions that are called at
once, so that they can stand where a value is needed. Closures of two or more parameters are wrapped
in a helper that allows them to be applied to fewer. Syntax errors leave no text.
-/

namespace Lispette

def BinaryOperator.javaScript : BinaryOperator → String
  | eq => "==="
  | notEq => "!=="
  | and => "&&"
  | or => "||"
  | op => op.symbol

def UnaryOperator.javaScript (op : UnaryOperator) : String := String.singleton op.symbol

namespace JavaScript

def curryName : String := "__curry"

/-- Collects arguments until there are as many as the function has parameters. -/
def curryHelper : String :=
  "const __curry = (fn) => \x7b
  const curried = (...args) =>
    args.length >= fn.length ? fn(...args) : (...rest) => curried(...args, ...rest);
  return curried;
\x7d;"

/-! ## Blocks -/

/-- A statement of a block, with the name it binds. -/
structure Line where
  code : Code
  declares : Option String

/-- The lines of a block. The last statement yields the value of the block, and a definition there
yields the name it binds. -/
def blockLines (indentation : String) : List Line → List Code
  | [] => []
  | [⟨code, none⟩] => [indentation ++ "return " ++ code ++ ";"]
  | [⟨code, some name⟩] => [indentation ++ code ++ ";", indentation ++ "return " ++ name ++ ";"]
  | line :: lines => (indentation ++ line.code ++ ";") :: blockLines indentation lines

def block (depth : Nat) (lines : List Line) : Code :=
  if lines.isEmpty then "\x7b\x7d"
  else
    "\x7b\n" ++ Code.join "\n" (blockLines (indent (depth + 1)) lines) ++ "\n" ++
      indent depth ++ "\x7d"

/-! ## Operands, targets and closures -/

/-- A second minus sign is kept apart from the first. -/
def negated (operand : Code) : Code :=
  if operand.text.toList.head? = some '-' then "-" ++ operand.parenthesized else "-" ++ operand

def unary (op : UnaryOperator) (operand : Code) : Code :=
  match op with
  | .negate => negated operand
  | op => op.javaScript ++ operand

/-- Parentheses where an arrow function cannot stand bare. -/
def asOperand (e : Expr) (code : Code) : Code :=
  match e with
  | .closure .. => code.parenthesized
  | _ => code

/-- Parentheses where neither an arrow function nor a number can stand bare. -/
def asTarget (e : Expr) (code : Code) : Code :=
  match e with
  | .number _ | .closure .. => code.parenthesized
  | _ => code

/-- A name is a property, anything else an index. -/
def access (key : Expr) (code : Code) : Code :=
  match key with
  | .identifier name => "." ++ name
  | _ => "[" ++ code ++ "]"

def closure (parameters : List String) (body : Code) : Code :=
  let arrow : Code := "(" ++ ", ".intercalate parameters ++ ") => " ++ body
  if 1 < parameters.length then
    { text := curryName ++ arrow.parenthesized.text, curries := true }
  else arrow

/-! ## Expressions -/

mutual

/-- The code of an expression whose first line stands at the given depth of indentation. -/
def render (depth : Nat) : Expr → Code
  | .number value => value.display
  | .string text => "\"" ++ text ++ "\""
  | .boolean value => if value then "true" else "false"
  | .nil => "null"
  | .array items => "[" ++ Code.commaSeparated (renderAll depth items) ++ "]"
  | .identifier name => name
  | .unary op operand => unary op (asOperand operand (render depth operand))
  | .binary op left right =>
    "(" ++ asOperand left (render depth left) ++ " " ++ op.javaScript ++ " " ++
      asOperand right (render depth right) ++ ")"
  | .call callee arguments =>
    asTarget callee (render depth callee) ++
      (Code.commaSeparated (renderAll depth arguments)).parenthesized
  | .chain receiver calls => asTarget receiver (render depth receiver) ++ renderCalls depth calls
  | .member target key => asTarget target (render depth target) ++ access key (render depth key)
  | .constant name value => "const " ++ name ++ " = " ++ render depth value
  | .function name parameters body =>
    "function " ++ name ++ "(" ++ ", ".intercalate parameters ++ ") " ++
      block depth (renderLines (depth + 1) body)
  | .print value => "console.log(String(" ++ render depth value ++ "))"
  | .block statements => "(() => " ++ block depth (renderLines (depth + 1) statements) ++ ")()"
  | .closure parameters body => closure parameters (block depth (renderLines (depth + 1) body))
  | .cond branches otherwise =>
    "(() => \x7b\n" ++ indent (depth + 1) ++
      Code.join " else " (renderBranches (depth + 1) branches) ++
      renderElse (depth + 1) otherwise ++ "\n" ++ indent depth ++ "\x7d)()"
  | .error _ => ""

def renderAll (depth : Nat) : List Expr → List Code
  | [] => []
  | e :: es => render depth e :: renderAll depth es

/-- The statements of a block, without those that are syntax errors. -/
def renderLines (depth : Nat) : List Expr → List Line
  | [] => []
  | e :: es =>
    if e.isError then renderLines depth es
    else ⟨render depth e, e.declaredName?⟩ :: renderLines depth es

def renderCalls (depth : Nat) : List (ChainCall Expr) → Code
  | [] => ""
  | ⟨target, arguments⟩ :: calls =>
    access target (render depth target) ++
      (Code.commaSeparated (renderAll depth arguments)).parenthesized ++ renderCalls depth calls

def renderBranches (depth : Nat) : List (Branch Expr) → List Code
  | [] => []
  | ⟨condition, body⟩ :: branches =>
    ("if (" ++ render depth condition ++ ") " ++ block depth (renderLines (depth + 1) body)) ::
      renderBranches depth branches

def renderElse (depth : Nat) : Option (List Expr) → Code
  | none => ""
  | some body => " else " ++ block depth (renderLines (depth + 1) body)

end

end JavaScript

end Lispette
