import Deferral.Number.Binary64

/-!
# The shortest decimal of a double

Every finite double other than zero has decimals that read back to it: those in the interval halfway
to its neighbours, the ends included when its mantissa is even. `Scaled.shortest` is the decimal of
that interval with the fewest digits, and among those the one nearest to the double. It tries one
digit, two digits, and so on: with `n` digits the only candidates worth trying are the two multiples
of the last place next to the double, and seventeen digits always suffice.
-/

set_option autoImplicit false

namespace Deferral.Number

/-- The decimal `digits · 10 ^ exponent`. -/
structure Decimal where
  digits : Nat
  exponent : Int
  deriving DecidableEq, Repr

/-- A positive rational as a pair of natural numbers. -/
structure Fraction where
  num : Nat
  den : Nat

namespace Fraction

/-- The rational `m · 2 ^ e`. -/
def ofBinary (m : Nat) (e : Int) : Fraction := ⟨m * Nat.pow 2 e.toNat, Nat.pow 2 (-e).toNat⟩

/-- The rational `m · 10 ^ e`. -/
def ofDecimal (m : Nat) (e : Int) : Fraction :=
  ⟨m * Nat.pow 10 e.toNat, Nat.pow 10 (-e).toNat⟩

def lt (a b : Fraction) : Bool := a.num * b.den < b.num * a.den

def le (a b : Fraction) : Bool := a.num * b.den ≤ b.num * a.den

/-- The whole part of `a / b`. -/
def quotient (a b : Fraction) : Nat := a.num * b.den / (a.den * b.num)

end Fraction

/-- The number of decimal digits of `n`, one for zero. -/
def digitCount (n : Nat) : Nat := (Nat.toDigits 10 n).length

/-- The `k` with `10 ^ k ≤ a < 10 ^ (k + 1)`. -/
def Fraction.magnitude (a : Fraction) : Int :=
  if a.den ≤ a.num then (digitCount (a.num / a.den) - 1 : Nat)
  else -(digitCount ((a.den + a.num - 1) / a.num - 1) : Int)

/-- The decimals that read back to a double, as an interval. -/
structure Rounding where
  low : Fraction
  high : Fraction
  closed : Bool

def Rounding.contains (r : Rounding) (a : Fraction) : Bool :=
  if r.closed then r.low.le a && a.le r.high else r.low.lt a && a.lt r.high

namespace Scaled

/-- The interval halfway to the neighbours of a positive double. Below the first double of a binade
the neighbours are twice as close. -/
def rounding (s : Scaled) : Rounding :=
  let narrow := s.mantissa == normalFloor && leastExponent < s.exponent
  { low :=
      if narrow then .ofBinary (4 * s.mantissa - 1) (s.exponent - 2)
      else .ofBinary (2 * s.mantissa - 1) (s.exponent - 1)
    high := .ofBinary (2 * s.mantissa + 1) (s.exponent - 1)
    closed := s.mantissa % 2 == 0 }

/-- Of the two multiples of `10 ^ place` next to the value, the nearer one that reads back to it; of
two equally near ones the larger. -/
def candidate (value : Fraction) (interval : Rounding) (place : Int) : Option Decimal :=
  let below := value.quotient (.ofDecimal 1 place)
  let lower := interval.contains (.ofDecimal below place)
  let upper := interval.contains (.ofDecimal (below + 1) place)
  -- the value lies nearer to the lower multiple when it is under the middle, `below + 1/2`
  let nearer := value.lt (.ofDecimal (10 * below + 5) (place - 1))
  if lower && (nearer || !upper) then some ⟨below, place⟩
  else if upper then some ⟨below + 1, place⟩
  else none

/-- The candidate with the fewest digits, trying `count` more places from `place` downwards. -/
def search (value : Fraction) (interval : Rounding) : Nat → Int → Option Decimal
  | 0, _ => none
  | count + 1, place =>
    match candidate value interval place with
    | some d => some d
    | none => search value interval count (place - 1)

/-- The shortest decimal that reads back to a positive double. -/
def shortest (s : Scaled) : Decimal :=
  let value := Fraction.ofBinary s.mantissa s.exponent
  (search value s.rounding 17 value.magnitude).getD ⟨s.mantissa, 0⟩

end Scaled

end Deferral.Number
