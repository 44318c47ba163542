/-!
# Reserved words

These words cannot be names. The words for truth values are not reserved: they are read as truth
values wherever an expression may stand, and may still be bound as names.
-/

namespace Lispette

inductive Keyword where
  | define | and | or | print | cond | otherwise | nil
deriving DecidableEq, Repr

namespace Keyword

def all : List Keyword := [define, and, or, print, cond, otherwise, nil]

def word : Keyword → String
  | define => "def"
  | and => "and"
  | or => "or"
  | print => "print"
  | cond => "cond"
  | otherwise => "else"
  | nil => "nil"

end Keyword

def isReserved (word : String) : Bool := Keyword.all.any (·.word = word)

end Lispette
