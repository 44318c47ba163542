import Lispette.Source.Cursor

/-!
# Resuming after an error

Parsing goes on where the parentheses that were open at the failure are closed. The nesting is read
off the raw text: parentheses inside string literals do not count, and a newline ends a string. An
opening parenthesis in the first column also ends the search, since it opens a form of its own.
-/

namespace Lispette

/-- Depth of open parentheses over raw source text. -/
structure Nesting where
  depth : Nat := 0
  inString : Bool := false
  escaped : Bool := false
deriving DecidableEq, Repr

namespace Nesting

def step (n : Nesting) (c : Char) : Nesting :=
  if c = '\n' then { n with inString := false, escaped := false }
  else if n.escaped then { n with escaped := false }
  else if c = '"' then { n with inString := !n.inString }
  else if n.inString then { n with escaped := c = '\\' }
  else if c = '(' then { n with depth := n.depth + 1 }
  else if c = ')' then { n with depth := n.depth - 1 }
  else n

def ofText (text : List Char) : Nesting := text.foldl step {}

/-- How many characters to pass until the nesting is closed. With `fresh`, the next character is in
the first column, and an opening parenthesis there is not passed. -/
def closingWidth (fresh : Bool) (n : Nesting) : List Char → Nat
  | [] => 0
  | c :: cs =>
    if n.depth = 0 || (fresh && c = '(') then 0
    else 1 + closingWidth (c = '\n') (n.step c) cs

end Nesting

namespace Cursor

/-- Passes the parenthesis that closes the construct around the cursor. The character under the
cursor is passed in any case. -/
def synchronize (s : Cursor) : Cursor :=
  s.forward (Nesting.closingWidth false { depth := 1 } s.rest)

/-- The text between two cursors on one source. -/
def passed (start s : Cursor) : List Char :=
  start.rest.take (start.rest.length - s.rest.length)

/-- Passes what closes every parenthesis that was opened between `start` and `s`. -/
def closeStatement (start s : Cursor) : Cursor :=
  let opened := (Nesting.ofText (passed start s)).depth
  s.forward (Nesting.closingWidth (s.column = 0) { depth := opened } s.rest)

/-- `closeStatement`, refused when `start` lies after `s`. -/
def closeStatement? (start s : Cursor) : Option Cursor :=
  if start.offset ≤ s.offset then some (closeStatement start s) else none

end Cursor

end Lispette
