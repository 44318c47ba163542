import Lispette.Number.Decimal

/-!
# Numerals

How doubles are written in the two outputs that show them, and how decimal text is read. Generated
code and trees never use an exponent. Data files keep the mark of a fractional number, `.0`, and use
an exponent outside of a middle range.
-/

namespace Lispette

namespace Decimal

/-- The number whose decimal digits are given; other characters are passed over. -/
def digitsValue (text : List Char) : Nat :=
  (text.filter Char.isDigit).foldl (fun n c ↦ 10 * n + (c.toNat - '0'.toNat)) 0

/-- Reads digits with at most one point among them. Underscores between digits have no meaning. -/
def ofNumeral (text : List Char) : Decimal where
  digits := digitsValue text
  exponent := -(((text.dropWhile (· ≠ '.')).filter Char.isDigit).length : Int)

/-- All digits before and after the point, with at least one before it. -/
def positional (d : Decimal) : List Char :=
  let digits := Nat.toDigits 10 d.digits
  match d.exponent with
  | .ofNat e => digits ++ List.replicate e '0'
  | .negSucc e =>
    let places := e + 1
    let padded := List.replicate (places + 1 - digits.length) '0' ++ digits
    padded.take (padded.length - places) ++ '.' :: padded.drop (padded.length - places)

/-- The exponent that leaves one digit before the point. -/
def scientificExponent (d : Decimal) : Int :=
  (Nat.toDigits 10 d.digits).length - 1 + d.exponent

/-- One digit before the point, then the exponent with its sign. -/
def scientific (d : Decimal) : List Char :=
  let mantissa := match Nat.toDigits 10 d.digits with
    | lead :: c :: cs => lead :: '.' :: c :: cs
    | digits => digits
  let e := d.scientificExponent
  mantissa ++ 'e' :: (if e < 0 then '-' else '+') :: Nat.toDigits 10 e.natAbs

/-- Positional from 10 ^ -5 up to 10 ^ 16, and then always with a point. -/
def dataText (d : Decimal) : List Char :=
  if -5 ≤ d.scientificExponent ∧ d.scientificExponent ≤ 15 then
    if 0 ≤ d.exponent then d.positional ++ ['.', '0'] else d.positional
  else d.scientific

end Decimal

namespace Binary64

def signed (negative : Bool) (text : List Char) : String :=
  String.ofList (if negative then '-' :: text else text)

/-- The fewest digits that are read as the number, never with an exponent. -/
def display : Binary64 → String
  | finite negative code => signed negative (Decimal.shortest .awayFromZero code).positional
  | infinite negative => signed negative ['i', 'n', 'f']
  | nan => "NaN"

/-- The fewest digits that are read as the number, in the form for data files. These have no text
for what is not finite. -/
def dataText? : Binary64 → Option String
  | finite negative code => some (signed negative (Decimal.shortest .toEven code).dataText)
  | _ => none

end Binary64

end Lispette
