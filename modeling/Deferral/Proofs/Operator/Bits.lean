import Deferral.Proofs.Operator.Exactness
import Mathlib.Data.Int.ModEq
import Mathlib.Data.Nat.Bitwise

/-!
# Bits and arithmetic

What shifts and the operators on bits do to the numbers that their operands stand for. A shift to the
right is a floored division and one to the left a product with the dropped bits left out; an amount that
is not below the width is refused, whatever it is. Of two words, the conjunction and the disjunction add
up to the sum of the two, and differ by the symmetric difference.

Integers are words in two's complement: their number is that of the word less `2 ^ w` if the top bit is
set (`toInt_eq_sub`), so that the laws of natural numbers go over to them by cases on the top bits.
-/

set_option autoImplicit false

namespace Deferral

open Operator

/-! ## Words -/

/-- The bits that two numbers share are counted twice in their sum, and once in the disjunction. -/
theorem lor_balance (a b : Nat) :
    (a &&& b) + (a ||| b) = a + b ∧ (a ^^^ b) + (a &&& b) = a ||| b := by
  induction a using Nat.strongRecOn generalizing b with
  | ind a ih =>
    by_cases ha : a = 0
    · rw [ha, Nat.zero_and, Nat.zero_or, Nat.zero_xor]
      exact ⟨rfl, rfl⟩
    -- the bits above the lowest, and then the lowest
    obtain ⟨hsum, hdiff⟩ := ih (a / 2) (by omega) (b / 2)
    rw [← Nat.and_div_two, ← Nat.or_div_two] at hsum hdiff
    rw [← Nat.xor_div_two] at hdiff
    have hand := Nat.and_mod_two_eq_one (a := a) (b := b)
    have hor := Nat.or_mod_two_eq_one (a := a) (b := b)
    have hxor := Nat.xor_mod_two_eq_one (a := a) (b := b)
    constructor <;> omega

section

variable {w : Nat} (x y : BitVec w)

theorem toInt_eq_sub : x.toInt = x.toNat - if x.msb then 2 ^ w else 0 := by
  rw [BitVec.toInt_eq_msb_cond]
  split <;> simp

theorem toInt_and_add_toInt_or : (x &&& y).toInt + (x ||| y).toInt = x.toInt + y.toInt := by
  have hsum := (lor_balance x.toNat y.toNat).1
  simp only [toInt_eq_sub, BitVec.toNat_and, BitVec.toNat_or, BitVec.msb_and, BitVec.msb_or]
  cases x.msb <;> cases y.msb <;>
    simp only [Bool.and_true, Bool.and_false, Bool.or_true, Bool.or_false, Bool.false_eq_true,
      if_true, if_false] <;> omega

theorem toInt_xor_add_toInt_and : (x ^^^ y).toInt + (x &&& y).toInt = (x ||| y).toInt := by
  have hdiff := (lor_balance x.toNat y.toNat).2
  simp only [toInt_eq_sub, BitVec.toNat_and, BitVec.toNat_or, BitVec.toNat_xor, BitVec.msb_and,
    BitVec.msb_or, BitVec.msb_xor]
  cases x.msb <;> cases y.msb <;>
    simp only [Bool.and_true, Bool.and_false, Bool.or_true, Bool.or_false, Bool.xor_true,
      Bool.xor_false, Bool.not_true, Bool.not_false, Bool.false_eq_true, if_true, if_false] <;> omega

/-- A shift to the left multiplies, up to a multiple of `2 ^ w`. -/
theorem toInt_shiftLeft_modEq (k : Nat) :
    (x <<< k).toInt ≡ x.toInt * 2 ^ k [ZMOD ((2 ^ w : Nat) : Int)] := by
  have hword : (x.toNat : Int) ≡ x.toInt [ZMOD ((2 ^ w : Nat) : Int)] := by
    rw [BitVec.toInt_eq_toNat_bmod]
    exact Int.bmod_emod.symm
  calc (x <<< k).toInt
      = ((x.toNat <<< k : Nat) : Int).bmod (2 ^ w) := BitVec.toInt_shiftLeft
    _ ≡ ((x.toNat <<< k : Nat) : Int) [ZMOD ((2 ^ w : Nat) : Int)] := Int.bmod_emod
    _ = x.toNat * 2 ^ k := by rw [Nat.shiftLeft_eq]; push_cast; rfl
    _ ≡ x.toInt * 2 ^ k [ZMOD ((2 ^ w : Nat) : Int)] := hword.mul_right _

end

/-! ## Integers -/

section

variable {a n : Int64}

theorem toInt_complement (a : Int64) : (~~~a).toInt = -a.toInt - 1 := by
  have hlow := a.le_toInt
  have hhigh := a.toInt_lt
  rw [Int64.toInt_not, Int.bmod_eq_of_le (by omega) (by omega)]

/-- An amount below the width is the number of places that the word is shifted by. -/
theorem amount_toNat (hlow : 0 ≤ n.toInt) (hhigh : n.toInt < 64) :
    (n.toBitVec.smod 64).toNat = n.toInt.toNat := by
  have hmod : (n.toBitVec.smod 64).toInt = n.toInt := by
    rw [BitVec.toInt_smod, Int64.toInt_toBitVec]
    exact Int.fmod_eq_of_lt hlow hhigh
  have hword := BitVec.toInt_eq_toNat_cond (n.toBitVec.smod 64)
  split at hword <;> omega

theorem toInt_shiftRight_eq (hlow : 0 ≤ n.toInt) (hhigh : n.toInt < 64) :
    (a >>> n).toInt = a.toInt.fdiv (2 ^ n.toInt.toNat) := by
  rw [← Int64.toInt_toBitVec, Int64.toBitVec_shiftRight, BitVec.sshiftRight_eq',
    amount_toNat hlow hhigh, BitVec.toInt_sshiftRight, Int64.toInt_toBitVec,
    Int.shiftRight_eq_div_pow, Int.fdiv_eq_ediv_of_nonneg _ (Int.pow_nonneg (by decide))]
  push_cast
  rfl

theorem toInt_shiftLeft_mod (hlow : 0 ≤ n.toInt) (hhigh : n.toInt < 64) :
    (a <<< n).toInt ≡ a.toInt * 2 ^ n.toInt.toNat [ZMOD 2 ^ 64] := by
  rw [← Int64.toInt_toBitVec, Int64.toBitVec_shiftLeft, BitVec.shiftLeft_eq',
    amount_toNat hlow hhigh, ← Int64.toInt_toBitVec a]
  exact toInt_shiftLeft_modEq a.toBitVec _

variable {op : BinaryOp} {int : Int64 → Int64 → Int64} {byte : UInt8 → UInt8 → UInt8}

theorem shift_inside (hlow : 0 ≤ n.toInt) (hhigh : n.toInt < 64) :
    shift op int byte (.int a) (.int n) = .ok (.int (int a n)) := by
  rw [shift_eq]
  exact if_pos ⟨hlow, hhigh⟩

theorem shift_outside (h : ¬(0 ≤ n.toInt ∧ n.toInt < 64)) :
    shift op int byte (.int a) (.int n) = .error (.overflow op.symbol) := by
  rw [shift_eq]
  exact if_neg h

end

/-! ## Bytes -/

section

variable {a n : UInt8}

theorem toNat_shiftRight_eq (h : n.toNat < 8) :
    ((a >>> n).toNat : Int) = (a.toNat : Int).fdiv (2 ^ n.toNat) := by
  rw [UInt8.toNat_shiftRight, Nat.mod_eq_of_lt h, Nat.shiftRight_eq_div_pow,
    Int.fdiv_eq_ediv_of_nonneg _ (Int.pow_nonneg (by decide))]
  push_cast
  rfl

theorem toNat_shiftLeft_mod (h : n.toNat < 8) :
    ((a <<< n).toNat : Int) ≡ (a.toNat : Int) * 2 ^ n.toNat [ZMOD 2 ^ 8] := by
  rw [UInt8.toNat_shiftLeft, Nat.mod_eq_of_lt h, Nat.shiftLeft_eq]
  push_cast
  exact Int.mod_modEq _ _

theorem toNat_complement (a : UInt8) : ((~~~a).toNat : Int) = 255 - a.toNat := by
  have hlt := a.toNat_lt
  rw [UInt8.toNat_not, UInt8.size]
  omega

end

/-! ## The operators -/

namespace Whole

/-- The number of bits of a value of the type. -/
def width : Whole → Nat
  | .int => 64
  | .byte => 8

/-- What the operators on bits answer on two numbers of a type. -/
structure Bitwise (t : Whole) (a b : Int) (answer : BinaryOp → Outcome) : Prop where
  logic : ∃ conj disj excl, t.Yields (answer .bitAnd) conj ∧ t.Yields (answer .bitOr) disj ∧
    t.Yields (answer .bitXor) excl ∧ conj + disj = a + b ∧ excl = disj - conj
  right : 0 ≤ b → b < t.width → t.Yields (answer .shiftRight) (a.fdiv (2 ^ b.toNat))
  left : 0 ≤ b → b < t.width → ∃ n, t.Yields (answer .shiftLeft) n ∧ t.Fits n ∧
    n ≡ a * 2 ^ b.toNat [ZMOD 2 ^ t.width]
  refused : b < 0 ∨ t.width ≤ b →
    answer .shiftRight = .error (.overflow ">>") ∧ answer .shiftLeft = .error (.overflow "<<")

theorem bitwise_int (a b : Int64) :
    Whole.int.Bitwise a.toInt b.toInt fun op => op.compute (.int a) (.int b) where
  logic := by
    refine ⟨_, _, _, ⟨_, rfl, rfl⟩, ⟨_, rfl, rfl⟩, ⟨_, rfl, rfl⟩, ?_, ?_⟩
    · exact toInt_and_add_toInt_or a.toBitVec b.toBitVec
    · exact eq_sub_of_add_eq (toInt_xor_add_toInt_and a.toBitVec b.toBitVec)
  right := fun hlow hhigh => by
    simp only [BinaryOp.compute, shift_inside hlow hhigh]
    exact ⟨_, rfl, congrArg some (toInt_shiftRight_eq hlow hhigh)⟩
  left := fun hlow hhigh => by
    simp only [BinaryOp.compute, shift_inside hlow hhigh]
    exact ⟨_, ⟨_, rfl, rfl⟩, fits_int _, toInt_shiftLeft_mod hlow hhigh⟩
  refused := fun h => by
    have hout : ¬ (0 ≤ b.toInt ∧ b.toInt < 64) := by
      simp only [width] at h
      omega
    simp only [BinaryOp.compute, shift_outside hout]
    exact ⟨rfl, rfl⟩

theorem bitwise_byte (a b : UInt8) :
    Whole.byte.Bitwise a.toNat b.toNat fun op => op.compute (.byte a) (.byte b) where
  logic := by
    refine ⟨_, _, _, ⟨_, rfl, rfl⟩, ⟨_, rfl, rfl⟩, ⟨_, rfl, rfl⟩, ?_, ?_⟩
    · rw [UInt8.toNat_and, UInt8.toNat_or]
      exact_mod_cast (lor_balance a.toNat b.toNat).1
    · rw [UInt8.toNat_and, UInt8.toNat_or, UInt8.toNat_xor]
      exact eq_sub_of_add_eq (by exact_mod_cast (lor_balance a.toNat b.toNat).2)
  right := fun _ hhigh => by
    have hlt : b.toNat < 8 := Int.ofNat_lt.1 hhigh
    exact ⟨_, if_pos hlt, congrArg some (toNat_shiftRight_eq hlt)⟩
  left := fun _ hhigh => by
    have hlt : b.toNat < 8 := Int.ofNat_lt.1 hhigh
    exact ⟨_, ⟨_, if_pos hlt, rfl⟩, fits_byte _, toNat_shiftLeft_mod hlt⟩
  refused := fun h => by
    have hout : ¬ b.toNat < 8 := by
      simp only [width] at h
      omega
    exact ⟨if_neg hout, if_neg hout⟩

end Whole

/-- Shifts and the operators on bits agree with arithmetic on the numbers that the operands stand for:
integers in two's complement, bytes without a sign. -/
theorem bits_agree_with_arithmetic :
    (∀ a b : Int64, Whole.int.Bitwise a.toInt b.toInt fun op => op.compute (.int a) (.int b)) ∧
    (∀ a : Int64, Whole.int.Yields (UnaryOp.complement.compute (.int a)) (-a.toInt - 1)) ∧
    (∀ a b : UInt8, Whole.byte.Bitwise a.toNat b.toNat fun op => op.compute (.byte a) (.byte b)) ∧
    (∀ a : UInt8, Whole.byte.Yields (UnaryOp.complement.compute (.byte a)) (255 - a.toNat)) :=
  ⟨Whole.bitwise_int, fun a => ⟨_, rfl, congrArg some (toInt_complement a)⟩,
    Whole.bitwise_byte, fun a => ⟨_, rfl, congrArg some (toNat_complement a)⟩⟩

end Deferral
