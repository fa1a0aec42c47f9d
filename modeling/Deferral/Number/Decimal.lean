import Deferral.Number.Shortest

/-!
# The text of a number

A double is written with the fewest digits that read back to it. Numbers from `0.0001` up to but not
including `10 ^ 16` are written positionally and always with a point; smaller and larger ones have one
digit before the point, a point only if digits follow, and an exponent.
-/

set_option autoImplicit false

namespace Deferral.Number

/-- Which leading exponents are written positionally, and how the special values are spelled. -/
structure FloatFormat where
  leastPositional : Int
  greatestPositional : Int
  nan : String
  infinity : String

/-- The format of program output: positional from `10 ^ -4` to below `10 ^ 16`. -/
def FloatFormat.standard : FloatFormat := ⟨-4, 15, "NaN", "inf"⟩

/-- The digits of a natural number, most significant first. -/
def natText (n : Nat) : String := String.ofList (Nat.toDigits 10 n)

/-- An integer in decimal, with a sign only if it is negative. -/
def intText (n : Int) : String :=
  if n < 0 then "-" ++ natText n.natAbs else natText n.natAbs

/-- Digits without the zeros at their end. -/
def trimZeros (digits : List Char) : List Char := (digits.reverse.dropWhile (· == '0')).reverse

/-- Digits whose first one stands for `10 ^ leading`, written with a point at the unit place. -/
def positional (digits : List Char) (leading : Int) : List Char :=
  if leading < 0 then
    '0' :: '.' :: (List.replicate (-leading - 1).toNat '0' ++ digits)
  else
    let whole := leading.toNat + 1
    let fraction := digits.drop whole
    let padding := List.replicate (whole - digits.length) '0'
    digits.take whole ++ padding ++ ('.' :: if fraction.isEmpty then ['0'] else fraction)

/-- Digits whose first one stands for `10 ^ leading`, written with an exponent. -/
def scientific (digits : List Char) (leading : Int) : List Char :=
  let mantissa :=
    match digits with
    | d :: e :: rest => d :: '.' :: e :: rest
    | short => short
  mantissa ++ 'e' :: (intText leading).toList

/-- The magnitude of a finite double. -/
def FloatFormat.magnitudeText (format : FloatFormat) (s : Scaled) : String :=
  if s.mantissa == 0 then "0.0"
  else
    let d := s.shortest
    let all := Nat.toDigits 10 d.digits
    let leading := d.exponent + (all.length - 1 : Nat)
    let digits := trimZeros all
    String.ofList <|
      if format.leastPositional ≤ leading && leading ≤ format.greatestPositional then
        positional digits leading
      else scientific digits leading

/-- The text of a double. A zero keeps its sign. -/
def FloatFormat.text (format : FloatFormat) (x : Float) : String :=
  match Binary64.ofFloat x with
  | .nan => format.nan
  | .infinite negative => (if negative then "-" else "") ++ format.infinity
  | .finite s => (if s.negative then "-" else "") ++ format.magnitudeText s

/-- The text of a double in program output. -/
def floatText (x : Float) : String := FloatFormat.standard.text x

end Deferral.Number
