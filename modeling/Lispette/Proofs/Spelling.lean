import Lispette.Language.Expr
import Lispette.Language.Keyword
import Lispette.Number.Numeral

/-!
# Spelling

How a program is written out: each part is written once, with a single space between two parts,
every body stands in braces and every call of a chain in parentheses. An operator in front of its
operand, a key and all brackets other than braces are written directly next to what they belong to.
-/

namespace Lispette

/-- The texts in order, with a single space between any two of them. -/
def spaced : List (List Char) → List Char
  | [] => []
  | text :: texts => text ++ texts.flatMap (' ' :: ·)

def enclosed (opening closing : Char) (parts : List (List Char)) : List Char :=
  opening :: (spaced parts ++ [closing])

/-- Braces are parts of their own. -/
def braced (parts : List (List Char)) : List Char := spaced (['\x7b'] :: (parts ++ [['\x7d']]))

def names (words : List String) : List (List Char) := words.map String.toList

namespace Expr

mutual

/-- A syntax error has no spelling. -/
def spelling : Expr → List Char
  | number value => value.display.toList
  | string text => '"' :: (text.toList ++ ['"'])
  | boolean value => (if value then "true" else "false").toList
  | nil => Keyword.nil.word.toList
  | array items => enclosed '[' ']' (spellings items)
  | identifier name => name.toList
  | unary op operand => op.symbol :: operand.spelling
  | binary op left right => enclosed '(' ')' [op.symbol.toList, left.spelling, right.spelling]
  | call callee arguments => enclosed '(' ')' (callee.spelling :: spellings arguments)
  | chain receiver calls =>
    enclosed '(' ')' (['~', '>'] :: receiver.spelling :: callSpellings calls)
  | member target key => target.spelling ++ '/' :: key.spelling
  | constant name value =>
    enclosed '(' ')' [Keyword.define.word.toList, name.toList, value.spelling]
  | function name parameters body =>
    enclosed '(' ')' [Keyword.define.word.toList, enclosed '(' ')' (names (name :: parameters)),
      braced (spellings body)]
  | print value => enclosed '(' ')' [Keyword.print.word.toList, value.spelling]
  | block statements => braced (spellings statements)
  | closure parameters body =>
    spaced [enclosed '|' '|' (names parameters), braced (spellings body)]
  | cond branches otherwise =>
    enclosed '(' ')'
      (Keyword.cond.word.toList :: (branchSpellings branches ++ elseSpellings otherwise))
  | error _ => []

def spellings : List Expr → List (List Char)
  | [] => []
  | e :: es => e.spelling :: spellings es

def callSpellings : List (ChainCall Expr) → List (List Char)
  | [] => []
  | ⟨target, arguments⟩ :: calls =>
    ['~', '>'] :: enclosed '(' ')' (target.spelling :: spellings arguments) :: callSpellings calls

def branchSpellings : List (Branch Expr) → List (List Char)
  | [] => []
  | ⟨condition, body⟩ :: branches =>
    condition.spelling :: braced (spellings body) :: branchSpellings branches

def elseSpellings : Option (List Expr) → List (List Char)
  | none => []
  | some body => [Keyword.otherwise.word.toList, braced (spellings body)]

end

end Expr

/-- The text of a whole program. -/
def Program.spelling (p : Program) : String := String.ofList (spaced (Expr.spellings p.body))

/-! ## Lists of parts -/

theorem enclosed_append (opening closing : Char) (parts : List (List Char)) (rest : List Char) :
    enclosed opening closing parts ++ rest = opening :: (spaced parts ++ closing :: rest) := by
  simp [enclosed]

/-- The spaces of a body can be counted as standing after its parts instead of in front of them. -/
theorem braced_append (parts : List (List Char)) (rest : List Char) :
    braced parts ++ rest =
      '\x7b' :: ' ' :: (parts.flatMap (· ++ [' ']) ++ '\x7d' :: rest) := by
  have hshift : (parts ++ [['\x7d']]).flatMap (' ' :: ·) ++ rest =
      ' ' :: (parts.flatMap (· ++ [' ']) ++ '\x7d' :: rest) := by
    induction parts with
    | nil => rfl
    | cons text parts ih =>
      rw [List.cons_append, List.flatMap_cons, List.append_assoc, ih]
      simp
  rw [braced, spaced, List.append_assoc, hshift]
  rfl

theorem Expr.spellings_eq_map (es : List Expr) : spellings es = es.map spelling := by
  induction es with
  | nil => rfl
  | cons e es ih => rw [spellings, ih, List.map_cons]

/-- One call of a chain, with the arrow and the spaces in front of it. -/
def ChainCall.spelling (c : ChainCall Expr) : List Char :=
  ' ' :: '~' :: '>' :: ' ' :: enclosed '(' ')' (c.target.spelling :: c.arguments.map Expr.spelling)

/-- With a space in front of each part, the calls of a chain are spelled one by one. -/
theorem Expr.flatMap_callSpellings (calls : List (ChainCall Expr)) :
    (callSpellings calls).flatMap (' ' :: ·) = calls.flatMap ChainCall.spelling := by
  induction calls with
  | nil => rfl
  | cons c calls ih =>
    rw [callSpellings, List.flatMap_cons, List.flatMap_cons, ih, List.flatMap_cons,
      ChainCall.spelling, spellings_eq_map]
    rfl

/-- One branch of a conditional, with the spaces in front of its parts. -/
def Branch.spelling (b : Branch Expr) : List Char :=
  ' ' :: (b.condition.spelling ++ ' ' :: braced (b.body.map Expr.spelling))

theorem Expr.flatMap_branchSpellings (branches : List (Branch Expr)) :
    (branchSpellings branches).flatMap (' ' :: ·) = branches.flatMap Branch.spelling := by
  induction branches with
  | nil => rfl
  | cons b branches ih =>
    rw [branchSpellings, List.flatMap_cons, List.flatMap_cons, ih, List.flatMap_cons,
      Branch.spelling, spellings_eq_map]
    simp

end Lispette
