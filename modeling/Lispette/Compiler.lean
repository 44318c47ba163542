import Lispette.Grammar.Program
import Lispette.JavaScript.Generator

/-!
# Compilation

Reading and generating in one step. A source with syntax errors is refused, and so is one without
statements.
-/

namespace Lispette

/-- Why a source is not compiled. A malformed source may still have a program, with its errors in
place of what could not be read. -/
inductive CompileError where
  | malformed (errors : List SyntaxError) (program : Option Program)
  | emptyProgram

def CompileError.message : CompileError → String
  | malformed errors _ => "failed to parse source: " ++ errors.length.repr ++ " syntax error(s)"
  | emptyProgram => "source contains no statements"

def compile (source : String) : Except CompileError String :=
  let parsed := parse source
  if parsed.final.errors.isEmpty then
    match parsed.program with
    | some program => .ok (generate program)
    | none => .error .emptyProgram
  else .error (.malformed parsed.final.errors parsed.program)

end Lispette
