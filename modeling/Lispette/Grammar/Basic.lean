import Lispette.Parser.Basic

/-!
# Grammars and their named rules

A grammar may be traced; then every named rule is logged where it is entered and where it is left.
-/

namespace Lispette

/-- The rules that appear in traces. -/
inductive Rule where
  | program | statement | definition | print | block | unary | member | array | cond | closure
  | binaryCall | methodChain | call | number | string | boolean | nil | identifier
deriving DecidableEq, Repr

def Rule.name : Rule → String
  | program => "program"
  | statement => "statement"
  | definition => "definition"
  | print => "print"
  | block => "block"
  | unary => "unary"
  | member => "member"
  | array => "array"
  | cond => "cond"
  | closure => "closure"
  | binaryCall => "binary_call"
  | methodChain => "method_chain"
  | call => "call"
  | number => "number"
  | string => "string"
  | boolean => "boolean"
  | nil => "nil"
  | identifier => "identifier"

structure Grammar where
  traced : Bool := false
deriving DecidableEq, Repr

namespace Grammar

def describe (g : Grammar) : String :=
  "Grammar \x7b traced: " ++ (if g.traced then "true" else "false") ++ " \x7d"

/-- The parser `p` as a named rule. Without tracing it is `p` itself. -/
def rule {α : Type} (g : Grammar) (r : Rule) (p : Parser α) : Parser α :=
  if g.traced then p.traced r.name else p

end Grammar

end Lispette
