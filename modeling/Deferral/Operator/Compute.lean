import Deferral.Operator.Arithmetic
import Deferral.Value.Collections

/-!
# Operators on values

`BinaryOp.compute` and `UnaryOp.compute` say what each operator does with operands that are there.
Nothing converts: operands of variants an operator does not know are a type error that holds them in
order.
-/

set_option autoImplicit false

namespace Deferral

namespace Operator

/-- A comparison, by the same relation on integers, floats, bytes and characters. A float that is not
a number compares false with everything. -/
def comparison (op : BinaryOp) (int : Int → Int → Bool) (real : Float → Float → Bool) :
    Value → Value → Outcome
  | .int a, .int b => .ok (.bool (int a.toInt b.toInt))
  | .float a, .float b => .ok (.bool (real a b))
  | .byte a, .byte b => .ok (.bool (int a.toNat b.toNat))
  | .char a, .char b => .ok (.bool (int a.toNat b.toNat))
  | l, r => .error (mismatch op l r)

/-- A connective of two truth values. -/
def connective (op : BinaryOp) (holds : Bool → Bool → Bool) : Value → Value → Outcome
  | .bool a, .bool b => .ok (.bool (holds a b))
  | l, r => .error (mismatch op l r)

/-- An operation on bits, sets and dictionaries. -/
def algebra (op : BinaryOp) (int : Int64 → Int64 → Int64) (byte : UInt8 → UInt8 → UInt8)
    (set : Items → Items → Items) (dict : Entries → Entries → Entries) : Value → Value → Outcome
  | .int a, .int b => .ok (.int (int a b))
  | .byte a, .byte b => .ok (.byte (byte a b))
  | .set a, .set b => .ok (.set (set a b))
  | .dict a, .dict b => .ok (.dict (dict a b))
  | l, r => .error (mismatch op l r)

def join : Value → Value → Outcome
  | .seq a, .seq b => .ok (.seq (a.concat b))
  | l, r => .error (mismatch .join l r)

def pushFront : Value → Value → Outcome
  | l, .seq s => .ok (.seq (s.pushFront l))
  | l, r => .error (mismatch .pushFront l r)

def pushBack : Value → Value → Outcome
  | .seq s, r => .ok (.seq (s.pushBack r))
  | l, r => .error (mismatch .pushBack l r)

def member : Value → Value → Outcome
  | l, .set items => .ok (.bool (Items.contains items l))
  | l, .dict entries => .ok (.bool (Entries.contains entries l))
  | l, .seq s => .ok (.bool (s.contains l))
  | l, r => .error (mismatch .mem l r)

end Operator

open Operator in
/-- A binary operator applied to two values. -/
def BinaryOp.compute (op : BinaryOp) : Value → Value → Outcome :=
  match op with
  | .add => arithmetic .add (· + ·) (· + ·)
  | .sub => arithmetic .sub (· - ·) (· - ·)
  | .mul => arithmetic .mul (· * ·) (· * ·)
  | .div => division .div Int.tdiv (· / ·)
  | .rem => division .rem Int.tmod Number.remainder
  | .eq => fun l r => .ok (.bool (l == r))
  | .ne => fun l r => .ok (.bool (!(l == r)))
  | .lt => comparison .lt (· < ·) (· < ·)
  | .le => comparison .le (· ≤ ·) (· ≤ ·)
  | .gt => comparison .gt (· > ·) (· > ·)
  | .ge => comparison .ge (· ≥ ·) (· ≥ ·)
  | .and => connective .and (· && ·)
  | .or => connective .or (· || ·)
  | .bitAnd => algebra .bitAnd (· &&& ·) (· &&& ·) Items.inter Entries.inter
  | .bitOr => algebra .bitOr (· ||| ·) (· ||| ·) Items.union Entries.union
  | .bitXor => algebra .bitXor (· ^^^ ·) (· ^^^ ·) Items.symmDiff Entries.symmDiff
  | .shiftLeft => shift .shiftLeft (· <<< ·) (· <<< ·)
  | .shiftRight => shift .shiftRight (· >>> ·) (· >>> ·)
  | .join => Operator.join
  | .pushFront => Operator.pushFront
  | .pushBack => Operator.pushBack
  | .mem => Operator.member

/-- A unary operator applied to a value. -/
def UnaryOp.compute (op : UnaryOp) (v : Value) : Outcome :=
  match op, v with
  | .neg, .int n => Operator.intResult op.symbol (-n.toInt)
  | .neg, .float x => .ok (.float (-x))
  | .not, .bool b => .ok (.bool (!b))
  | .complement, .int n => .ok (.int (~~~n))
  | .complement, .byte b => .ok (.byte (~~~b))
  | _, _ => .error (.typeError op.symbol [v])

end Deferral
