/-!
# Doubles as integers times powers of two

Every finite double is `± mantissa · 2 ^ exponent` with a mantissa below `2 ^ 53` and an exponent of
at least `-1074`. `Binary64.ofFloat` takes a double apart and `Scaled.toFloat` puts one together;
exact questions about doubles are asked of the parts.
-/

set_option autoImplicit false

namespace Deferral.Number

/-- The exponent of the smallest step between two doubles. -/
def leastExponent : Int := -1074

/-- The number of mantissas below the first normal one, `2 ^ 52`. -/
def normalFloor : Nat := 0x10000000000000

/-- The weight of the sign bit, `2 ^ 63`. -/
def signWeight : Nat := 0x8000000000000000

/-- A finite double, `± mantissa · 2 ^ exponent`. -/
structure Scaled where
  negative : Bool
  mantissa : Nat
  exponent : Int
  deriving DecidableEq, Repr

/-- What a double stands for. -/
inductive Binary64 where
  | nan
  | infinite (negative : Bool)
  | finite (value : Scaled)
  deriving DecidableEq, Repr

namespace Binary64

/-- Takes a double apart: one sign bit, eleven exponent bits, fifty-two fraction bits. -/
def ofFloat (x : Float) : Binary64 :=
  let bits := x.toBits.toNat
  let negative := bits / signWeight == 1
  let field := bits / normalFloor % 2048
  let fraction := bits % normalFloor
  if field == 2047 then
    if fraction == 0 then .infinite negative else .nan
  else if field == 0 then .finite ⟨negative, fraction, leastExponent⟩
  else .finite ⟨negative, normalFloor + fraction, leastExponent + (field - 1 : Nat)⟩

end Binary64

namespace Scaled

/-- Puts a double together from a mantissa below `2 ^ 53` and an exponent in range: the mantissa is
shifted up until it is normal or the exponent is the least one. -/
def toFloat (s : Scaled) : Float :=
  let sign := if s.negative then signWeight else 0
  if s.mantissa == 0 then Float.ofBits (UInt64.ofNat sign)
  else
    let shift := min (52 - Nat.log2 s.mantissa) (s.exponent - leastExponent).toNat
    let mantissa := s.mantissa * Nat.pow 2 shift
    let steps := ((s.exponent - leastExponent).toNat - shift)
    let magnitude :=
      if mantissa < normalFloor then mantissa else (steps + 1) * normalFloor + (mantissa - normalFloor)
    Float.ofBits (UInt64.ofNat (sign + magnitude))

end Scaled

end Deferral.Number
