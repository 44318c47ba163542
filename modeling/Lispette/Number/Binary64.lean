/-!
# Double precision numbers

The numbers of the binary64 format. A finite magnitude is given by its code, the exponent field
above the fraction field. Magnitudes are whole multiples of the least positive one, which is two to
the power -1074, so their arithmetic is exact arithmetic on natural numbers; and codes increase with
the magnitudes they stand for.
-/

namespace Lispette

namespace Binary64

/-- The codes of one exponent: fractions have 52 bits. -/
abbrev fractionCodes : Nat := 0x10000000000000

/-- Codes from here on stand for infinity and for what is not a number. -/
abbrev finiteCodes : Nat := 0x7ff0000000000000

end Binary64

inductive Binary64 where
  | finite (negative : Bool) (code : Fin Binary64.finiteCodes)
  | infinite (negative : Bool)
  | nan
deriving DecidableEq, Repr

namespace Binary64

def isFinite : Binary64 → Bool
  | finite .. => true
  | _ => false

/-- The magnitude of a code, as a multiple of the least positive one. -/
def units (code : Nat) : Nat :=
  if code < fractionCodes then code
  else (fractionCodes + code % fractionCodes) * Nat.pow 2 (code / fractionCodes - 1)

/-- The quotient rounded to the nearest whole number, halves to the even one. -/
def roundDiv (n d : Nat) : Nat :=
  if 2 * (n % d) < d then n / d
  else if d < 2 * (n % d) then n / d + 1
  else n / d + n / d % 2

/-- The code nearest to a quotient of units: 53 significant bits are kept, and a fraction that
overflows on rounding carries into the exponent. -/
def nearestCode (n d : Nat) : Nat :=
  let shift := (n / d).log2 - 52
  shift * fractionCodes + roundDiv n (d * Nat.pow 2 shift)

/-- A code beyond the finite ones overflows to infinity. -/
def ofCode (negative : Bool) (code : Nat) : Binary64 :=
  if h : code < finiteCodes then finite negative ⟨code, h⟩ else infinite negative

end Binary64

end Lispette
