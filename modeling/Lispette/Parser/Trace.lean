import Lispette.Source.Cursor

/-!
# Traces

A trace lists the named rules in the order in which a parser entered and left them.
-/

namespace Lispette

/-- How a rule ended. -/
inductive Verdict where
  | matched
  | noMatch
  | recovered
deriving DecidableEq, Repr

def Verdict.text : Verdict → String
  | .matched => "Matched"
  | .noMatch => "NoMatch"
  | .recovered => "Recovered"

def Position.text (p : Position) : String :=
  p.offset.repr ++ ":" ++ p.line.repr ++ ":" ++ p.column.repr

/-- A rule is left at the position of the cursor it returns. -/
inductive Event where
  | enter (rule : String) (place : Position)
  | exit (rule : String) (verdict : Verdict) (place : Position)
deriving DecidableEq, Repr

def Event.text : Event → String
  | .enter rule place => "enter " ++ rule ++ " " ++ place.text
  | .exit rule verdict place => "exit " ++ rule ++ " " ++ verdict.text ++ " " ++ place.text

end Lispette
