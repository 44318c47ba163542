import Lispette.Number.Binary64

/-!
# Decimals

Decimal numbers, the double nearest to each of them, and the decimal of fewest digits that is read
as a given double.
-/

namespace Lispette

/-- The number `digits * 10 ^ exponent`. -/
structure Decimal where
  digits : Nat
  exponent : Int
deriving DecidableEq, Repr

namespace Decimal

/-- The code of the nearest magnitude. -/
def code (d : Decimal) : Nat :=
  match d.exponent with
  | .ofNat e => Binary64.nearestCode (d.digits * Nat.pow 10 e * Nat.pow 2 1074) 1
  | .negSucc e => Binary64.nearestCode (d.digits * Nat.pow 2 1074) (Nat.pow 10 (e + 1))

/-- The same number without trailing zeros among its digits. -/
def trim (d : Decimal) : Decimal :=
  if _h : 0 < d.digits ∧ d.digits % 10 = 0 then trim ⟨d.digits / 10, d.exponent + 1⟩ else d
termination_by d.digits
decreasing_by exact Nat.div_lt_self _h.1 (by decide)

/-- How many decimal digits a number has, for numbers below `10 ^ 2 ^ k`. -/
def digitCount : Nat → Nat → Nat
  | 0, _ => 1
  | k + 1, n =>
    let half := Nat.pow 10 (Nat.pow 2 k)
    if n < half then digitCount k n else Nat.pow 2 k + digitCount k (n / half)

/-- Which of two equally near decimals is taken. -/
inductive Tie where
  | awayFromZero
  | toEven
deriving DecidableEq, Repr

/-- Of the two multiples of `unit` around `n`, whether the lower one is taken. -/
def Tie.prefersLower (tie : Tie) (n unit : Nat) : Bool :=
  if 2 * (n % unit) = unit then
    match tie with
    | awayFromZero => false
    | toEven => n / unit % 2 = 0
  else 2 * (n % unit) < unit

/-- The neighbour of `n * 10 ^ -1074` among the multiples of `10 ^ (places - 1074)` that is read as
the given code, if there is one; of two, the nearer. -/
def neighbour? (tie : Tie) (code n places : Nat) : Option Decimal :=
  let unit := Nat.pow 10 places
  let lower : Decimal := ⟨n / unit, (places : Int) - 1074⟩
  let upper : Decimal := ⟨n / unit + 1, (places : Int) - 1074⟩
  let candidates := if tie.prefersLower n unit then [lower, upper] else [upper, lower]
  candidates.find? fun d ↦ d.code = code

/-- The decimal of fewest digits that is read as the given code; of those the nearest. The full
expansion ends 1074 places after the point, and seventeen of its digits always suffice. -/
def shortest (tie : Tie) (code : Nat) : Decimal :=
  if code = 0 then ⟨0, 0⟩
  else
    let expansion := Binary64.units code * Nat.pow 5 1074
    let length := digitCount 11 expansion
    let found := (List.range 17).findSome? fun n ↦
      neighbour? tie code expansion (length - (n + 1))
    (found.getD ⟨expansion, -1074⟩).trim

end Decimal

/-- The double nearest to a decimal. -/
def Binary64.ofDecimal (negative : Bool) (d : Decimal) : Binary64 := ofCode negative d.code

end Lispette
