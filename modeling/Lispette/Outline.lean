import Lispette.Language.Expr
import Lispette.Number.Numeral
import Lispette.Source.Cursor

/-!
# Outlines

Programs as indented trees, and short reports on how far reading came. Each node has a line of its
own; its parts follow, indented further, under a label where a node has several.
-/

namespace Lispette

/-- One line, before it is indented. -/
structure OutlineLine where
  depth : Nat
  text : String
deriving DecidableEq, Repr

namespace OutlineLine

def render (line : OutlineLine) : String :=
  String.ofList (List.replicate (2 * line.depth) ' ') ++ line.text ++ "\n"

def renderAll (lines : List OutlineLine) : String := String.join (lines.map render)

end OutlineLine

namespace Outline

/-- A label over the lines of one part. -/
def field (depth : Nat) (label : String) (part : List OutlineLine) : List OutlineLine :=
  ⟨depth, label ++ ":"⟩ :: part

/-- A label over the lines of a list of parts; an empty list stands beside its label. -/
def list (depth : Nat) (label : String) (parts : List OutlineLine) : List OutlineLine :=
  if parts.isEmpty then [⟨depth, label ++ ": []"⟩] else ⟨depth, label ++ ":"⟩ :: parts

end Outline

namespace Expr

open Outline

mutual

def outline (depth : Nat) : Expr → List OutlineLine
  | number value => [⟨depth, "Number " ++ value.display⟩]
  | string text => [⟨depth, "String \"" ++ text ++ "\""⟩]
  | boolean value => [⟨depth, "Boolean " ++ if value then "true" else "false"⟩]
  | nil => [⟨depth, "Nil"⟩]
  | identifier name => [⟨depth, "Identifier " ++ name⟩]
  | array items => ⟨depth, "Array"⟩ :: list (depth + 1) "items" (outlines (depth + 2) items)
  | unary op operand =>
    ⟨depth, "UnaryOp " ++ String.singleton op.symbol⟩ :: operand.outline (depth + 1)
  | binary op left right =>
    ⟨depth, "BinaryOp " ++ op.symbol⟩ ::
      (field (depth + 1) "left" (left.outline (depth + 2)) ++
        field (depth + 1) "right" (right.outline (depth + 2)))
  | call callee arguments =>
    ⟨depth, "Call"⟩ ::
      (field (depth + 1) "callee" (callee.outline (depth + 2)) ++
        list (depth + 1) "args" (outlines (depth + 2) arguments))
  | chain receiver calls =>
    ⟨depth, "MethodCallChain"⟩ ::
      (field (depth + 1) "receiver" (receiver.outline (depth + 2)) ++
        callOutlines (depth + 1) calls)
  | member target key =>
    ⟨depth, "Member"⟩ ::
      (field (depth + 1) "target" (target.outline (depth + 2)) ++
        field (depth + 1) "key" (key.outline (depth + 2)))
  | constant name value => ⟨depth, "VariableDecl " ++ name⟩ :: value.outline (depth + 1)
  | function name parameters body =>
    ⟨depth, "FunctionDecl " ++ name ++ "(" ++ " ".intercalate parameters ++ ")"⟩ ::
      list (depth + 1) "body" (outlines (depth + 2) body)
  | print value => ⟨depth, "Print"⟩ :: value.outline (depth + 1)
  | block statements =>
    ⟨depth, "Block"⟩ :: list (depth + 1) "statements" (outlines (depth + 2) statements)
  | closure parameters body =>
    ⟨depth, "Function |" ++ " ".intercalate parameters ++ "|"⟩ ::
      list (depth + 1) "body" (outlines (depth + 2) body)
  | cond branches otherwise =>
    ⟨depth, "Cond"⟩ ::
      (branchOutlines (depth + 1) branches ++ elseOutline (depth + 1) otherwise)
  | error e => [⟨depth, "ParseError " ++ e.text⟩]

def outlines (depth : Nat) : List Expr → List OutlineLine
  | [] => []
  | e :: es => e.outline depth ++ outlines depth es

def callOutlines (depth : Nat) : List (ChainCall Expr) → List OutlineLine
  | [] => []
  | ⟨target, arguments⟩ :: calls =>
    ⟨depth, "~>"⟩ ::
      (field (depth + 1) "target" (target.outline (depth + 2)) ++
        list (depth + 1) "args" (outlines (depth + 2) arguments) ++ callOutlines depth calls)

def branchOutlines (depth : Nat) : List (Branch Expr) → List OutlineLine
  | [] => []
  | ⟨condition, body⟩ :: branches =>
    field depth "when" (condition.outline (depth + 1)) ++
      list depth "then" (outlines (depth + 1) body) ++ branchOutlines depth branches

def elseOutline (depth : Nat) : Option (List Expr) → List OutlineLine
  | none => []
  | some body => list depth "else" (outlines (depth + 1) body)

end

/-- The tree of one expression. -/
def tree (e : Expr) : String := OutlineLine.renderAll (e.outline 0)

end Expr

/-- The tree of a program. -/
def Program.tree (p : Program) : String :=
  OutlineLine.renderAll (⟨0, "Program"⟩ :: Expr.outlines 1 p.body)

/-- Where a cursor stands and which errors it has recorded. -/
def Cursor.report (s : Cursor) : String :=
  "State at offset " ++ s.offset.repr ++ " (line " ++ s.line.repr ++ ", column " ++ s.column.repr ++
    ") of " ++ s.size.repr ++ "\n" ++
    if s.errors.isEmpty then "  no errors\n"
    else String.join (s.errors.map fun e ↦ "  " ++ e.text ++ "\n")

end Lispette
