import Lispette.Number.Numeral

/-!
# Data values and their text

The values of the JSON data format, with the members of an object in order. The compact text has no
blanks; the pretty text has one member or item on each line.
-/

namespace Lispette

inductive Json where
  | null
  | boolean (value : Bool)
  | natural (value : Nat)
  | number (value : Binary64)
  | string (value : String)
  | array (items : List Json)
  | object (members : List (String × Json))
deriving Inhabited

namespace Json

/-- The last two hexadecimal digits of a number. -/
def hexPair (n : Nat) : List Char := [Nat.digitChar (n / 16 % 16), Nat.digitChar (n % 16)]

/-- Quotes, backslashes and control characters are escaped, nothing else. -/
def escaped (c : Char) : List Char :=
  if c = '"' then ['\\', '"']
  else if c = '\\' then ['\\', '\\']
  else if c = '\x08' then ['\\', 'b']
  else if c = '\x0c' then ['\\', 'f']
  else if c = '\n' then ['\\', 'n']
  else if c = '\r' then ['\\', 'r']
  else if c = '\t' then ['\\', 't']
  else if c.toNat < 0x20 then ['\\', 'u', '0', '0'] ++ hexPair c.toNat
  else [c]

def quoted (text : String) : String :=
  String.ofList ('"' :: text.toList.flatMap escaped ++ ['"'])

def numberText (value : Binary64) : String := value.dataText?.getD "null"

def atLevel (level : Nat) (line : String) : String :=
  String.ofList (List.replicate (2 * level) ' ') ++ line

/-- Brackets around items on lines of their own, indented one level further. Without items the
brackets stand together. -/
def bracketed (opening closing : String) (level : Nat) (items : List String) : String :=
  if items.isEmpty then opening ++ closing
  else
    opening ++ "\n" ++ ",\n".intercalate (items.map (atLevel (level + 1))) ++ "\n" ++
      atLevel level closing

mutual

def compact : Json → String
  | null => "null"
  | boolean value => if value then "true" else "false"
  | natural value => value.repr
  | number value => numberText value
  | string value => quoted value
  | array items => "[" ++ ",".intercalate (compactItems items) ++ "]"
  | object members => "\x7b" ++ ",".intercalate (compactMembers members) ++ "\x7d"

def compactItems : List Json → List String
  | [] => []
  | item :: items => compact item :: compactItems items

def compactMembers : List (String × Json) → List String
  | [] => []
  | (key, value) :: members => (quoted key ++ ":" ++ compact value) :: compactMembers members

end

mutual

def pretty (level : Nat) : Json → String
  | null => "null"
  | boolean value => if value then "true" else "false"
  | natural value => value.repr
  | number value => numberText value
  | string value => quoted value
  | array items => bracketed "[" "]" level (prettyItems (level + 1) items)
  | object members => bracketed "\x7b" "\x7d" level (prettyMembers (level + 1) members)

def prettyItems (level : Nat) : List Json → List String
  | [] => []
  | item :: items => pretty level item :: prettyItems level items

def prettyMembers (level : Nat) : List (String × Json) → List String
  | [] => []
  | (key, value) :: members =>
    (quoted key ++ ": " ++ pretty level value) :: prettyMembers level members

end

end Json

end Lispette
