import Lispette.Parser.Trace
import Lispette.Source.Nesting

/-!
# Parsers

A parser runs at a cursor and answers in one of three ways. It matches with a value; it does not
match, and then hands back the cursor it was given; or it has committed to a construct that turned
out broken, and then its cursor has already recorded the error and moved past the broken construct.
Only the second answer lets an alternative be tried.
-/

namespace Lispette

inductive Reply (α : Type) where
  | matched (value : α)
  | noMatch
  | recovered (error : SyntaxError)
deriving DecidableEq, Repr

namespace Reply

variable {α β : Type}

def map (f : α → β) : Reply α → Reply β
  | matched a => matched (f a)
  | noMatch => noMatch
  | recovered e => recovered e

def verdict : Reply α → Verdict
  | matched _ => .matched
  | noMatch => .noMatch
  | recovered _ => .recovered

def isMatch : Reply α → Bool
  | matched _ => true
  | _ => false

def value? : Reply α → Option α
  | matched a => some a
  | _ => none

end Reply

/-- What one run of a parser leaves behind. -/
structure Run (α : Type) where
  reply : Reply α
  cursor : Cursor
  events : List Event := []

structure Parser (α : Type) where
  run : Cursor → Run α

namespace Parser

variable {α β : Type}

/-- Matches without consuming anything. -/
def succeed (a : α) : Parser α where
  run s := { reply := .matched a, cursor := s }

/-- Never matches. -/
def noMatch : Parser α where
  run s := { reply := .noMatch, cursor := s }

/-- Runs `f` where `p` ends. If either does not match, the whole does not match. -/
def andThen (p : Parser α) (f : α → Parser β) : Parser β where
  run s :=
    match p.run s with
    | ⟨.matched a, t, log⟩ =>
      match (f a).run t with
      | ⟨.noMatch, _, more⟩ => ⟨.noMatch, s, log ++ more⟩
      | ⟨reply, u, more⟩ => ⟨reply, u, log ++ more⟩
    | ⟨.noMatch, _, log⟩ => ⟨.noMatch, s, log⟩
    | ⟨.recovered e, t, log⟩ => ⟨.recovered e, t, log⟩

instance : Monad Parser where
  pure := succeed
  bind := andThen

/-- Ordered choice: `q` runs only where `p` does not match. -/
def orElse (p : Parser α) (q : Unit → Parser α) : Parser α where
  run s :=
    match p.run s with
    | ⟨.noMatch, _, log⟩ =>
      let r := (q ()).run s
      { r with events := log ++ r.events }
    | r => r

instance : OrElse (Parser α) := ⟨orElse⟩

/-- The first of the alternatives that does not fail to match. -/
def choice : List (Parser α) → Parser α
  | [] => noMatch
  | p :: ps => p <|> choice ps

/-- Keeps a match only if `f` accepts its value. -/
def filterMap (f : α → Option β) (p : Parser α) : Parser β := do
  match f (← p) with
  | some b => return b
  | none => noMatch

def optional (p : Parser α) : Parser (Option α) := some <$> p <|> pure none

/-- Matches, without consuming anything, where `p` does not match. -/
def notFollowedBy (p : Parser α) : Parser Unit where
  run s :=
    match p.run s with
    | ⟨.noMatch, _, log⟩ => ⟨.matched (), s, log⟩
    | ⟨_, _, log⟩ => ⟨.noMatch, s, log⟩

/-- The cursor itself. -/
def here : Parser Cursor where
  run s := { reply := .matched s, cursor := s }

/-- Commits to `p`: where it does not match, an error is recorded that reaches from `start`, where
the construct around it begins, up to here, and the input up to the end of that construct is passed.
-/
def orFail (p : Parser α) (start : Cursor) (message : String) : Parser α where
  run s :=
    match p.run s with
    | ⟨.noMatch, _, log⟩ =>
      let e : SyntaxError := ⟨message, start.line, start.offset, s.offset⟩
      ⟨.recovered e, (s.withError e).synchronize, log⟩
    | r => r

/-- Logs where the rule is entered and where it is left. -/
def traced (rule : String) (p : Parser α) : Parser α where
  run s :=
    let r := p.run s
    { r with
      events := .enter rule s.toPosition :: r.events ++
        [.exit rule r.reply.verdict r.cursor.toPosition] }

theorem bind_eq (p : Parser α) (f : α → Parser β) : p >>= f = andThen p f := rfl

end Parser

end Lispette
