import Lispette.JavaScript.Render

/-!
# Generated programs

Statements end in semicolons and stand on lines of their own. The helper for partial application
comes first, once, if any closure relies on it.

A generator writes single expressions and blocks, one after the other. It goes through each of them
once, keeping track of how deep it stands, and remembers whether anything relies on the helper.
-/

namespace Lispette

namespace JavaScript

/-- The statements of a program, without the helper. -/
def statements (body : List Expr) : Code :=
  Code.join "\n" ((renderLines 0 body).map fun line ↦ line.code ++ ";")

/-- How deep the code stands that is being written, and whether any code so far relies on the
helper. -/
structure Generator where
  depth : Nat := 0
  needsCurry : Bool := false
deriving DecidableEq, Repr

namespace Generator

/-- Remembers, in place of the piece, whether it relies on the helper. -/
def absorb (code : Code) : StateM Generator Code := do
  modify fun g ↦ { g with needsCurry := g.needsCurry || code.curries }
  return { text := code.text }

/-- Writes one level deeper. -/
def deeper {α : Type} (write : StateM Generator α) : StateM Generator α := do
  modify fun g ↦ { g with depth := g.depth + 1 }
  let written ← write
  modify fun g ↦ { g with depth := g.depth - 1 }
  return written

def indentation : StateM Generator Code := return indent (← get).depth

/-- A block around the lines, which stand one level deeper than its braces. -/
def enclose (lines : StateM Generator (List Line)) : StateM Generator Code := do
  let written ← deeper lines
  return block (← get).depth written

mutual

def write : Expr → StateM Generator Code
  | .number value => return value.display
  | .string text => return "\"" ++ text ++ "\""
  | .boolean value => return if value then "true" else "false"
  | .nil => return "null"
  | .array items => return "[" ++ Code.commaSeparated (← writeAll items) ++ "]"
  | .identifier name => return name
  | .unary op operand => return unary op (asOperand operand (← write operand))
  | .binary op left right =>
    return "(" ++ asOperand left (← write left) ++ " " ++ op.javaScript ++ " " ++
      asOperand right (← write right) ++ ")"
  | .call callee arguments =>
    return asTarget callee (← write callee) ++
      (Code.commaSeparated (← writeAll arguments)).parenthesized
  | .chain receiver calls => return asTarget receiver (← write receiver) ++ (← writeCalls calls)
  | .member target key => return asTarget target (← write target) ++ access key (← write key)
  | .constant name value => return "const " ++ name ++ " = " ++ (← write value)
  | .function name parameters body =>
    return "function " ++ name ++ "(" ++ ", ".intercalate parameters ++ ") " ++
      (← enclose (writeLines body))
  | .print value => return "console.log(String(" ++ (← write value) ++ "))"
  | .block statements => return "(() => " ++ (← enclose (writeLines statements)) ++ ")()"
  | .closure parameters body => do absorb (closure parameters (← enclose (writeLines body)))
  | .cond branches otherwise => do
    let chain ← deeper do
      return (← indentation) ++ Code.join " else " (← writeBranches branches) ++
        (← writeElse otherwise)
    return "(() => \x7b\n" ++ chain ++ "\n" ++ (← indentation) ++ "\x7d)()"
  | .error _ => return ""

def writeAll : List Expr → StateM Generator (List Code)
  | [] => return []
  | e :: es => return (← write e) :: (← writeAll es)

def writeLines : List Expr → StateM Generator (List Line)
  | [] => return []
  | e :: es =>
    if e.isError then writeLines es
    else return ⟨← write e, e.declaredName?⟩ :: (← writeLines es)

def writeCalls : List (ChainCall Expr) → StateM Generator Code
  | [] => return ""
  | ⟨target, arguments⟩ :: calls =>
    return access target (← write target) ++
      (Code.commaSeparated (← writeAll arguments)).parenthesized ++ (← writeCalls calls)

def writeBranches : List (Branch Expr) → StateM Generator (List Code)
  | [] => return []
  | ⟨condition, body⟩ :: branches =>
    return ("if (" ++ (← write condition) ++ ") " ++ (← enclose (writeLines body))) ::
      (← writeBranches branches)

def writeElse : Option (List Expr) → StateM Generator Code
  | none => return ""
  | some body => return " else " ++ (← enclose (writeLines body))

end

def expression (g : Generator) (e : Expr) : String × Generator :=
  let (code, g) := (write e).run g
  (code.text, g)

def block (g : Generator) (statements : List Expr) : String × Generator :=
  let (code, g) := (enclose (writeLines statements)).run g
  (code.text, g)

end Generator

end JavaScript

def generate (p : Program) : String :=
  let code := JavaScript.statements p.body
  if code.curries then JavaScript.curryHelper ++ "\n" ++ code.text else code.text

end Lispette
