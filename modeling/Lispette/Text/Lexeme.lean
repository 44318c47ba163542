import Lispette.Text.Space

/-!
# Lexical shapes

A shape is given by its width: how many leading characters of a text belong to it, zero when the
text does not start with the shape. The lexeme itself is then a prefix of the text by construction.
Layout is the one shape that may be empty.
-/

namespace Lispette.Text

def isNameStart (c : Char) : Bool := c.isAlpha || c = '_'

def isNameChar (c : Char) : Bool := c.isAlphanum || c = '_'

/-- A letter or underscore, followed by letters, digits and underscores; all of them ASCII. -/
def nameWidth : List Char → Nat
  | [] => 0
  | c :: cs => if isNameStart c then 1 + (cs.takeWhile isNameChar).length else 0

/-- Continues a run of digits: single underscores may stand between two digits. -/
def digitsTailWidth : List Char → Nat
  | [] => 0
  | [c] => if c.isDigit then 1 else 0
  | c :: d :: cs =>
    if c.isDigit then 1 + digitsTailWidth (d :: cs)
    else if c = '_' && d.isDigit then 2 + digitsTailWidth cs
    else 0

def digitsWidth : List Char → Nat
  | [] => 0
  | c :: cs => if c.isDigit then 1 + digitsTailWidth cs else 0

/-- The width of a point followed by digits. A point without digits has width zero. -/
def fractionWidth : List Char → Nat
  | '.' :: cs => if digitsWidth cs = 0 then 0 else 1 + digitsWidth cs
  | _ => 0

/-- Digits, then optionally a point and more digits. -/
def numeralWidth (cs : List Char) : Nat :=
  let whole := digitsWidth cs
  if whole = 0 then 0 else whole + fractionWidth (cs.drop whole)

/-- The inside of a string literal: it ends before a quote, before a newline, and before a backslash
that has no character of its own line to escape. -/
def stringWidth : List Char → Nat
  | [] => 0
  | [c] => if c = '"' || c = '\n' || c = '\\' then 0 else 1
  | c :: d :: cs =>
    if c = '"' || c = '\n' then 0
    else if c = '\\' then if d = '\n' then 0 else 2 + stringWidth cs
    else 1 + stringWidth (d :: cs)

/-- White space and comments; a comment runs from a semicolon up to the end of its line. -/
def layoutWidth (inComment : Bool) : List Char → Nat
  | [] => 0
  | c :: cs =>
    if c = '\n' then 1 + layoutWidth false cs
    else if inComment || c = ';' then 1 + layoutWidth true cs
    else if isSpace c then 1 + layoutWidth false cs
    else 0

end Lispette.Text
