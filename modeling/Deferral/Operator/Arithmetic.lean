import Deferral.Error
import Deferral.Number.Remainder
import Deferral.Operator.Basic

/-!
# Arithmetic

Integers and bytes are computed exactly and then checked: a result outside the range of its type is an
overflow, never a wrapped value. Division goes toward zero; a zero is found before anything else is
asked of the operands. Shifts drop bits but refuse an amount that is not smaller than the width.
-/

set_option autoImplicit false

namespace Deferral.Operator

/-- The error of an operator that is not defined for its two operands. -/
def mismatch (op : BinaryOp) (l r : Value) : Error := .typeError op.symbol [l, r]

/-- The least integer value, `-2 ^ 63`. -/
def leastInt : Int := -9223372036854775808

/-- The greatest integer value, `2 ^ 63 - 1`. -/
def greatestInt : Int := 9223372036854775807

/-- An exact result as an integer value, or an overflow. -/
def intResult (symbol : String) (n : Int) : Outcome :=
  if leastInt ≤ n ∧ n ≤ greatestInt then .ok (.int (Int64.ofInt n)) else .error (.overflow symbol)

/-- An exact result as a byte value, or an overflow. -/
def byteResult (symbol : String) (n : Int) : Outcome :=
  if 0 ≤ n ∧ n ≤ 255 then .ok (.byte (UInt8.ofNat n.toNat)) else .error (.overflow symbol)

/-- Addition, subtraction and multiplication: `whole` is the exact operation, `real` the one on
floats. -/
def arithmetic (op : BinaryOp) (whole : Int → Int → Int) (real : Float → Float → Float) :
    Value → Value → Outcome
  | .int a, .int b => intResult op.symbol (whole a.toInt b.toInt)
  | .byte a, .byte b => byteResult op.symbol (whole a.toNat b.toNat)
  | .float a, .float b => .ok (.float (real a b))
  | l, r => .error (mismatch op l r)

/-- A whole number that nothing is divided by. -/
def isExactZero : Value → Bool
  | .int n => n.toInt = 0
  | .byte b => b.toNat = 0
  | _ => false

/-- What is divided by an exact zero: a whole number of the same variant cannot be, and nothing else is
divided at all. -/
def divisionByZero (op : BinaryOp) (l r : Value) : Outcome :=
  match l with
  | .int _ | .byte _ =>
    if l.typeName = r.typeName then .error .divisionByZero else .error (mismatch op l r)
  | _ => .error (mismatch op l r)

/-- Quotient and remainder by anything else. The one quotient of integers that is out of range
overflows, and so does the remainder that belongs to it. -/
def checkedDivision (op : BinaryOp) (whole : Int → Int → Int) (real : Float → Float → Float) :
    Value → Value → Outcome
  | .int a, .int b =>
    if b.toInt = 0 ∨ a.toInt = leastInt ∧ b.toInt = -1 then .error (.overflow op.symbol)
    else intResult op.symbol (whole a.toInt b.toInt)
  | .byte a, .byte b =>
    if b.toNat = 0 then .error (.overflow op.symbol)
    else byteResult op.symbol (whole a.toNat b.toNat)
  | .float a, .float b => .ok (.float (real a b))
  | l, r => .error (mismatch op l r)

/-- Quotient and remainder. The divisor is looked at first, whatever is divided. -/
def division (op : BinaryOp) (whole : Int → Int → Int) (real : Float → Float → Float)
    (l r : Value) : Outcome :=
  if isExactZero r then divisionByZero op l r else checkedDivision op whole real l r

/-- The two tests of a division by the variants of its operands. -/
theorem division_eq (op : BinaryOp) (whole : Int → Int → Int) (real : Float → Float → Float)
    (l r : Value) : division op whole real l r =
      match l, r with
      | .int a, .int b =>
        if b.toInt = 0 then .error .divisionByZero
        else if a.toInt = leastInt ∧ b.toInt = -1 then .error (.overflow op.symbol)
        else intResult op.symbol (whole a.toInt b.toInt)
      | .byte a, .byte b =>
        if b.toNat = 0 then .error .divisionByZero
        else byteResult op.symbol (whole a.toNat b.toNat)
      | .float a, .float b => .ok (.float (real a b))
      | l, r => .error (mismatch op l r) := by
  rw [division]
  split
  · -- a divisor of zero is of a variant that fits or of one that does not
    rename_i hzero
    cases r <;> simp only [isExactZero, decide_eq_true_eq, Bool.false_eq_true] at hzero <;>
      cases l <;> simp [divisionByZero, hzero, Value.typeName]
  · rename_i hzero
    cases l <;> cases r <;> simp only [isExactZero, decide_eq_true_eq] at hzero <;>
      simp [checkedDivision, hzero]

/-- An amount as an unsigned word of 32 bits, if it is one. -/
def narrow (n : Int64) : Option Nat :=
  if 0 ≤ n.toInt ∧ n.toInt < 4294967296 then some n.toInt.toNat else none

/-- A value shifted by an amount below its width, or an overflow. -/
def checkedShift (op : BinaryOp) (width amount : Nat) (shifted : Value) : Outcome :=
  if amount < width then .ok shifted else .error (.overflow op.symbol)

/-- A shift of an integer or a byte by an amount below its width. The amount of an integer is narrowed
first. -/
def shift (op : BinaryOp) (int : Int64 → Int64 → Int64) (byte : UInt8 → UInt8 → UInt8) :
    Value → Value → Outcome
  | .int a, .int n =>
    match narrow n with
    | some amount => checkedShift op 64 amount (.int (int a (Int64.ofNat amount)))
    | none => .error (.overflow op.symbol)
  | .byte a, .byte n => checkedShift op 8 n.toNat (.byte (byte a n))
  | l, r => .error (mismatch op l r)

/-- The two tests of an amount as one. -/
theorem shift_eq (op : BinaryOp) (int : Int64 → Int64 → Int64) (byte : UInt8 → UInt8 → UInt8)
    (l r : Value) : shift op int byte l r =
      match l, r with
      | .int a, .int n =>
        if 0 ≤ n.toInt ∧ n.toInt < 64 then .ok (.int (int a n)) else .error (.overflow op.symbol)
      | .byte a, .byte n =>
        if n.toNat < 8 then .ok (.byte (byte a n)) else .error (.overflow op.symbol)
      | l, r => .error (mismatch op l r) := by
  cases l with
  | int a =>
    cases r with
    | int n =>
      simp only [shift, narrow]
      by_cases hnarrow : 0 ≤ n.toInt ∧ n.toInt < 4294967296
      · have hsame : Int64.ofNat n.toInt.toNat = n := by
          rw [← Int64.ofInt_eq_ofNat, Int.toNat_of_nonneg hnarrow.1, Int64.ofInt_toInt]
        have hwidth : n.toInt.toNat < 64 ↔ 0 ≤ n.toInt ∧ n.toInt < 64 := by omega
        simp only [if_pos hnarrow, checkedShift, hsame, hwidth]
      · have hwidth : ¬(0 ≤ n.toInt ∧ n.toInt < 64) := by omega
        simp only [if_neg hnarrow, if_neg hwidth]
    | _ => rfl
  | byte a => cases r <;> rfl
  | _ => rfl

end Deferral.Operator
