/-!
# Syntax errors

A syntax error names what was expected and the stretch of source over which it was missing.
-/

namespace Lispette

/-- `start` and `stop` are the byte offsets between which a construct failed, `stop` exclusive;
`line`, counted from one, is the line on which it starts. -/
structure SyntaxError where
  message : String
  line : Nat
  start : Nat
  stop : Nat
deriving DecidableEq, Repr

def SyntaxError.text (e : SyntaxError) : String :=
  e.message ++ " at line " ++ e.line.repr ++ " (" ++ e.start.repr ++ ".." ++ e.stop.repr ++ ")"

end Lispette
