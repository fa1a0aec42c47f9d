import Deferral.Number.Binary64

/-!
# The remainder of a division of doubles

The remainder of `x` by `y` is `x - n · y` for the integer `n` nearest to `x / y` on the side of zero.
It is exact: both operands are brought to the smaller of their exponents, where the remainder is one
of natural numbers, and it has the sign of `x`.
-/

set_option autoImplicit false

namespace Deferral.Number

/-- The exact remainder of two finite doubles, the second one nonzero. -/
def Scaled.remainder (x y : Scaled) : Scaled :=
  let exponent := min x.exponent y.exponent
  let dividend := x.mantissa * Nat.pow 2 (x.exponent - exponent).toNat
  let divisor := y.mantissa * Nat.pow 2 (y.exponent - exponent).toNat
  ⟨x.negative, dividend % divisor, exponent⟩

/-- The remainder of `x` by `y`. There is none for an infinite dividend or a zero divisor; an infinite
divisor leaves the dividend as it is. -/
def remainder (x y : Float) : Float :=
  match Binary64.ofFloat x, Binary64.ofFloat y with
  | .finite a, .finite b => if b.mantissa == 0 then 0.0 / 0.0 else (a.remainder b).toFloat
  | .finite _, .infinite _ => x
  | _, _ => 0.0 / 0.0

end Deferral.Number
