import Lispette.Grammar.Form

/-!
# Programs

The rules of the grammar, closed under the nesting of forms, and the reading of whole sources. Forms
nest no deeper than there are bytes of source, so rules are unfolded to that depth, and once more
since a part may also be looked for at the end of the source.

A source is read to its end whatever it holds. A statement that broke becomes a syntax error and is
left behind as a whole; input that no statement accepts is reported once and passed.
-/

namespace Lispette

/-- The parts of forms that nest at most `depth` deep. -/
def Parts.ofDepth (g : Grammar) : Nat → Parts
  | 0 =>
    { g with statement := Parser.noMatch, expression := Parser.noMatch, member := Parser.noMatch }
  | depth + 1 =>
    { g with
      statement := ⟨fun s ↦ (Form.statement (ofDepth g depth)).run s⟩
      expression := ⟨fun s ↦ (Form.unary (ofDepth g depth)).run s⟩
      member := ⟨fun s ↦ (Form.member (ofDepth g depth)).run s⟩ }

namespace Grammar

open Lispette.Parser

variable {α : Type}

/-- A form whose parts may nest as deep as the source allows. -/
def nested (g : Grammar) (form : Parts → Parser α) : Parser α where
  run s := (form (Parts.ofDepth g (s.remaining + 1))).run s

def expression (g : Grammar) : Parser Expr := g.nested Form.unary

def unary (g : Grammar) : Parser Expr := g.nested Form.unary

def member (g : Grammar) : Parser Expr := g.nested Form.member

def primary (g : Grammar) : Parser Expr := g.nested Form.primary

def array (g : Grammar) : Parser Expr := g.nested Form.array

def cond (g : Grammar) : Parser Expr := g.nested Form.cond

def closure (g : Grammar) : Parser Expr := g.nested Form.closure

def binaryCall (g : Grammar) : Parser Expr := g.nested Form.binaryCall

def methodChain (g : Grammar) : Parser Expr := g.nested Form.methodChain

def blockExpression (g : Grammar) : Parser Expr := g.nested Form.blockExpression

def call (g : Grammar) : Parser Expr := g.nested Form.call

def block (g : Grammar) : Parser (List Expr) := g.nested Form.block

def body (g : Grammar) : Parser (List Expr) := g.nested Form.body

def definition (g : Grammar) : Parser Expr := g.nested Form.definition

def print (g : Grammar) : Parser Expr := g.nested Form.print

def statement (g : Grammar) : Parser Expr := g.nested Form.statement

/-- Where a statement broke, its error takes its place, and the source goes on after it. -/
def salvaged (p : Parser Expr) : Parser Expr where
  run s :=
    match p.run s with
    | ⟨.recovered e, t, log⟩ => ⟨.matched (.error e), Cursor.closeStatement s t, log⟩
    | r => r

/-- Passes input up to where a statement may begin again, and leaves an error in its place. -/
def skipped : Parser Expr where
  run s :=
    if s.atEnd then ⟨.noMatch, s, []⟩
    else
      let t := s.synchronize
      let e : SyntaxError := ⟨Fault.unexpectedInput.message, s.line, s.offset, t.offset⟩
      ⟨.matched (.error e), t.withError e, []⟩

/-- Input that is no statement. Layout before the end of the source is not such input. -/
def unreadable : Parser Expr := do
  layout
  skipped

def topLevel (g : Grammar) : Parser Expr := salvaged g.statement <|> unreadable

/-- A source without statements does not match. -/
def program (g : Grammar) : Parser Program := g.rule .program do
  let body ← oneOrMore g.topLevel
  layout
  return { body }

end Grammar

/-- A source, read: its program, if it holds any statement, and the cursor at which reading ended,
with all syntax errors. -/
structure Parse where
  program : Option Program
  final : Cursor
  events : List Event

def Grammar.parse (g : Grammar) (source : String) : Parse :=
  let run := g.program.run (Cursor.ofSource source)
  ⟨run.reply.value?, run.cursor, run.events⟩

def parse (source : String) : Parse := ({} : Grammar).parse source

end Lispette
