/-!
# Pieces of generated code

A piece of code is its text together with whether the text relies on the helper for partial
application. Pieces are put together like texts.
-/

namespace Lispette.JavaScript

structure Code where
  text : String
  curries : Bool := false
deriving DecidableEq, Repr

namespace Code

/-- Irreducible, so that comparing pieces does not take their texts apart. -/
@[irreducible]
def append (a b : Code) : Code := ⟨a.text ++ b.text, a.curries || b.curries⟩

instance : Append Code := ⟨append⟩

instance : Coe String Code where
  coe text := { text }

@[simp] theorem text_append (a b : Code) : (a ++ b).text = a.text ++ b.text := by
  change (append a b).text = _
  rw [append]

@[simp] theorem curries_append (a b : Code) : (a ++ b).curries = (a.curries || b.curries) := by
  change (append a b).curries = _
  rw [append]

def join (separator : String) : List Code → Code
  | [] => ""
  | [piece] => piece
  | piece :: pieces => piece ++ separator ++ join separator pieces

/-- Items of an array, arguments of a call. -/
def commaSeparated (pieces : List Code) : Code := join ", " pieces

def parenthesized (code : Code) : Code := "(" ++ code ++ ")"

end Code

/-- Two spaces for each level. -/
def indent (depth : Nat) : String := String.ofList (List.replicate (2 * depth) ' ')

end Lispette.JavaScript
