import Lispette.Parser.Basic

/-!
# Faults

What can be wrong with a source, and how each fault is reported.
-/

namespace Lispette

/-- All faults but the last are parts missing from a construct. -/
inductive Fault where
  | definedName
  | definedValue
  | functionBody
  | parametersEnd
  | definitionEnd
  | printedValue
  | printEnd
  | blockEnd
  | stringEnd
  | arrayEnd
  | memberKey
  | condBranch
  | branchBody
  | elseBody
  | condEnd
  | closureParametersEnd
  | closureBody
  | leftOperand
  | rightOperand
  | binaryEnd
  | receiver
  | chainCall
  | chainEnd
  | callEnd
  | unexpectedInput
deriving DecidableEq, Repr

namespace Fault

def message : Fault → String
  | definedName => "Expected a name after 'def'"
  | definedValue => "Expected a value for the definition"
  | functionBody => "Expected a function body"
  | parametersEnd => "Expected ')' closing the parameter list"
  | definitionEnd => "Expected ')' closing a definition"
  | printedValue => "Expected an expression to print"
  | printEnd => "Expected ')' closing print"
  | blockEnd => "Expected '\x7d' closing a block"
  | stringEnd => "Expected '\"' terminating a string"
  | arrayEnd => "Expected ']' closing an array"
  | memberKey => "Expected a key after '/'"
  | condBranch => "Expected at least one cond branch"
  | branchBody => "Expected a body for the cond branch"
  | elseBody => "Expected a body after 'else'"
  | condEnd => "Expected ')' closing cond"
  | closureParametersEnd => "Expected '|' closing closure parameters"
  | closureBody => "Expected a closure body"
  | leftOperand => "Expected a left operand"
  | rightOperand => "Expected a right operand"
  | binaryEnd => "Expected ')' closing a binary operation"
  | receiver => "Expected a receiver after '~>'"
  | chainCall => "Expected a call after '~>'"
  | chainEnd => "Expected ')' closing a method chain"
  | callEnd => "Expected ')' closing a call"
  | unexpectedInput => "Unexpected input after statement"

end Fault

/-- Commits the construct that begins at `start` to its part `p`. -/
def Parser.expect {α : Type} (start : Cursor) (missing : Fault) (p : Parser α) : Parser α :=
  p.orFail start missing.message

end Lispette
