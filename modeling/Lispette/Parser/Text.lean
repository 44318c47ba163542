import Lispette.Parser.Basic
import Lispette.Text.Lexeme

/-!
# Parsers for text

Single characters, fixed texts and lexical shapes. None of them matches an empty stretch of source;
layout alone does.
-/

namespace Lispette.Parser

def satisfy (ok : Char → Bool) : Parser Char where
  run s :=
    match s.peek? with
    | some c => if ok c then ⟨.matched c, s.advance, []⟩ else ⟨.noMatch, s, []⟩
    | none => ⟨.noMatch, s, []⟩

def char (c : Char) : Parser Unit := discard (satisfy (· = c))

/-- The next `width` characters, where `width` is measured on the unconsumed text. -/
def taking (width : List Char → Nat) : Parser (List Char) where
  run s :=
    let n := width s.rest
    ⟨.matched (s.rest.take n), s.forward n, []⟩

/-- A lexeme of the given shape. -/
def lexeme (width : List Char → Nat) : Parser (List Char) :=
  filterMap (fun text ↦ if text.isEmpty then none else some text) (taking width)

/-- Exactly the given text, which must not be empty. -/
def literal (text : String) : Parser Unit :=
  discard (lexeme fun rest ↦ if text.toList.isPrefixOf rest then text.length else 0)

/-- White space and comments, if there are any. -/
def layout : Parser Unit := discard (taking (Text.layoutWidth false))

/-- The given word, not directly followed by a further character of a name. -/
def keyword (word : String) : Parser Unit := do
  literal word
  notFollowedBy (satisfy Text.isNameChar)

end Lispette.Parser
