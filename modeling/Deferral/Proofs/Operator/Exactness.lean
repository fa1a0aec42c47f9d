import Deferral.Proofs.Eval.Lifting
import Mathlib.Algebra.Order.Ring.Int

/-!
# Arithmetic is exact or refused

The two types of whole numbers are read as mathematical integers (`Whole.read`), and every arithmetic
operator is described on the readings: addition, subtraction, multiplication and negation answer the
exact result where the type has it and an overflow where it has not (`Whole.Exactly`), and division
answers the quotient and the remainder toward zero but for a divisor of zero and the one quotient that
no integer is (`Division`). One argument serves both types: an integer and a byte differ in their ranges
only.
-/

set_option autoImplicit false

namespace Deferral

open Operator

/-! ## Whole numbers -/

/-- The types of whole numbers. -/
inductive Whole where
  | int
  | byte
  deriving DecidableEq, Repr

namespace Whole

def least : Whole → Int
  | .int => -2 ^ 63
  | .byte => 0

def greatest : Whole → Int
  | .int => 2 ^ 63 - 1
  | .byte => 255

/-- The number that a value of the type stands for. -/
def read : Whole → Value → Option Int
  | .int, .int a => some a.toInt
  | .byte, .byte a => some a.toNat
  | _, _ => none

/-- The number is one of the type. -/
def Fits (t : Whole) (n : Int) : Prop := t.least ≤ n ∧ n ≤ t.greatest

instance (t : Whole) (n : Int) : Decidable (t.Fits n) := inferInstanceAs (Decidable (_ ∧ _))

/-- The outcome is the value of the type that stands for the number. -/
def Yields (t : Whole) (o : Outcome) (n : Int) : Prop := ∃ v, o = .ok v ∧ t.read v = some n

/-- The outcome is the number if the type has it, and otherwise an overflow of the operator. -/
structure Exactly (t : Whole) (symbol : String) (n : Int) (o : Outcome) : Prop where
  inside : t.Fits n → t.Yields o n
  outside : ¬ t.Fits n → o = .error (.overflow symbol)

/-- The outcome of an exact result, whatever the type. -/
def result : Whole → String → Int → Outcome
  | .int => intResult
  | .byte => byteResult

theorem leastInt_eq : leastInt = Whole.int.least := by decide

theorem greatestInt_eq : greatestInt = Whole.int.greatest := by decide

theorem fits_int (a : Int64) : Whole.int.Fits a.toInt := by
  have hlow := a.le_toInt
  have hhigh := a.toInt_lt
  exact ⟨hlow, by simp only [greatest]; omega⟩

theorem fits_byte (a : UInt8) : Whole.byte.Fits a.toNat := by
  have := a.toNat_lt
  exact ⟨Int.natCast_nonneg _, by simp only [greatest]; omega⟩

/-- Whatever a value of the type stands for is in the range of the type. -/
theorem fits_of_read {t : Whole} {v : Value} {n : Int} (h : t.read v = some n) : t.Fits n := by
  unfold read at h
  split at h
  · exact Option.some.inj h ▸ fits_int _
  · exact Option.some.inj h ▸ fits_byte _
  · cases h

theorem Yields.ne_error {t : Whole} {o : Outcome} {n : Int} (h : t.Yields o n) (e : Error) :
    o ≠ .error e := by
  obtain ⟨v, rfl, -⟩ := h
  exact nofun

theorem Yields.fits {t : Whole} {o : Outcome} {n : Int} (h : t.Yields o n) : t.Fits n :=
  h.elim fun _ hv => fits_of_read hv.2

/-- An exact result is checked against the range of its type. -/
theorem exactly_result (t : Whole) (symbol : String) (n : Int) :
    t.Exactly symbol n (t.result symbol n) := by
  cases t with
  | int =>
    simp only [result, intResult, leastInt_eq, greatestInt_eq]
    refine ⟨fun h => ?_, fun h => if_neg h⟩
    refine ⟨_, if_pos h, congrArg some (Int64.toInt_ofInt_of_le h.1 ?_)⟩
    have := h.2
    simp only [greatest] at this
    omega
  | byte =>
    simp only [result, byteResult]
    refine ⟨fun h => ?_, fun h => if_neg h⟩
    obtain ⟨k, rfl⟩ := Int.eq_ofNat_of_zero_le h.1
    refine ⟨_, if_pos h, congrArg some ?_⟩
    have hk : k < UInt8.size := by
      have := h.2
      simp only [greatest] at this
      simp only [UInt8.size]
      omega
    rw [Int.toNat_natCast, UInt8.toNat_ofNat_of_lt' hk]

end Whole

/-! ## Division toward zero -/

/-- A quotient and a remainder that belong together: the remainder is smaller than the divisor, and is
zero or has the sign of the dividend. -/
structure Divides (a b q r : Int) : Prop where
  total : a = q * b + r
  small : |r| < |b|
  sign : r = 0 ∨ r.sign = a.sign

/-- The remainder lies between zero and the dividend. -/
theorem tmod_between (a b : Int) : 0 ≤ a.tmod b ∧ a.tmod b ≤ a ∨ a ≤ a.tmod b ∧ a.tmod b ≤ 0 := by
  have habs := Int.natAbs_tmod a b
  have hle := Nat.mod_le a.natAbs b.natAbs
  rcases Int.le_total 0 a with ha | ha
  · have := Int.tmod_nonneg b ha
    exact .inl (by omega)
  · have := Int.tmod_nonneg b (Int.neg_nonneg_of_nonpos ha)
    rw [Int.neg_tmod] at this
    exact .inr (by omega)

theorem divides_tdiv (a : Int) {b : Int} (hb : b ≠ 0) : Divides a b (a.tdiv b) (a.tmod b) where
  total := by rw [Int.mul_comm, Int.mul_tdiv_add_tmod]
  small := by
    have hlt := Nat.mod_lt a.natAbs (Int.natAbs_pos.2 hb)
    rw [← Int.natAbs_tmod] at hlt
    rw [Int.abs_eq_natAbs, Int.abs_eq_natAbs]
    exact_mod_cast hlt
  sign := by
    rcases Int.lt_trichotomy (a.tmod b) 0 with hr | hr | hr
    · have ha : a < 0 := by have := tmod_between a b; omega
      exact .inr (by rw [Int.sign_eq_neg_one_of_neg hr, Int.sign_eq_neg_one_of_neg ha])
    · exact .inl hr
    · have ha : 0 < a := by have := tmod_between a b; omega
      exact .inr (by rw [Int.sign_eq_one_of_pos hr, Int.sign_eq_one_of_pos ha])

namespace Whole

variable {t : Whole} {a b : Int}

/-- The one quotient that a type does not have: the least integer by minus one. -/
def Escapes (t : Whole) (a b : Int) : Prop := t = .int ∧ a = -2 ^ 63 ∧ b = -1

instance (t : Whole) (a b : Int) : Decidable (t.Escapes a b) :=
  inferInstanceAs (Decidable (_ ∧ _ ∧ _))

theorem fits_tmod (ha : t.Fits a) (b : Int) : t.Fits (a.tmod b) := by
  have hbetween := tmod_between a b
  obtain ⟨hlow, hhigh⟩ := ha
  cases t <;> simp only [Fits, least, greatest] at * <;> omega

/-- A quotient is no larger than half the dividend, unless the divisor is a unit. -/
theorem fits_tdiv (ha : t.Fits a) (hb : t.Fits b) (hzero : b ≠ 0) (h : ¬ t.Escapes a b) :
    t.Fits (a.tdiv b) := by
  have hle := Int.natAbs_tdiv_le_natAbs a b
  cases t with
  | byte =>
    have hnonneg := Int.tdiv_nonneg ha.1 hb.1
    simp only [Fits, least, greatest] at *
    omega
  | int =>
    simp only [Fits, least, greatest, Escapes, true_and] at *
    by_cases hone : b = -1
    · rw [hone, Int.tdiv_neg, Int.tdiv_one]
      omega
    by_cases hpos : b = 1
    · rw [hpos, Int.tdiv_one]
      exact ha
    · have hhalf : (a.tdiv b).natAbs ≤ a.natAbs / 2 := by
        rw [Int.natAbs_tdiv]
        exact Nat.div_le_div_left (by omega) (by decide)
      omega

/-- What `/` and `%` answer on two numbers of a type. -/
structure Division (t : Whole) (a b : Int) (quotient remainder : Outcome) : Prop where
  zero : (quotient = .error .divisionByZero ↔ b = 0) ∧ (remainder = .error .divisionByZero ↔ b = 0)
  escape : (quotient = .error (.overflow "/") ↔ t.Escapes a b) ∧
    (remainder = .error (.overflow "%") ↔ t.Escapes a b)
  divides : b ≠ 0 → ¬ t.Escapes a b →
    ∃ q r, t.Yields quotient q ∧ t.Yields remainder r ∧ Divides a b q r

/-- What the five operators of arithmetic answer on two numbers of a type. -/
structure Arithmetic (t : Whole) (a b : Int) (answer : BinaryOp → Outcome) : Prop where
  add : t.Exactly "+" (a + b) (answer .add)
  sub : t.Exactly "-" (a - b) (answer .sub)
  mul : t.Exactly "*" (a * b) (answer .mul)
  division : t.Division a b (answer .div) (answer .rem)

/-! ## The operators on readings -/

variable {l r : Value} {op : BinaryOp} {whole : Int → Int → Int} {real : Float → Float → Float}

theorem arithmetic_of_read (hl : t.read l = some a) (hr : t.read r = some b) :
    arithmetic op whole real l r = t.result op.symbol (whole a b) := by
  cases t <;> cases l <;> cases hl <;> cases r <;> cases hr <;> rfl

theorem division_of_read (hl : t.read l = some a) (hr : t.read r = some b) :
    division op whole real l r =
      if b = 0 then .error .divisionByZero
      else if t.Escapes a b then .error (.overflow op.symbol)
      else t.result op.symbol (whole a b) := by
  cases t <;> cases l <;> cases hl <;> cases r <;> cases hr
  · simp only [division_eq, leastInt_eq, Escapes, least, true_and]
    rfl
  · simp only [division_eq, Escapes, Int.natCast_eq_zero, reduceCtorEq, false_and, if_false]
    rfl

theorem division_exact (hl : t.read l = some a) (hr : t.read r = some b) :
    t.Division a b (BinaryOp.div.compute l r) (BinaryOp.rem.compute l r) := by
  simp only [BinaryOp.compute, division_of_read hl hr]
  by_cases hzero : b = 0
  · have hescape : ¬ t.Escapes a b := fun h => by have := h.2.2; omega
    simp only [if_pos hzero]
    exact ⟨⟨⟨fun _ => hzero, fun _ => rfl⟩, fun _ => hzero, fun _ => rfl⟩,
      ⟨⟨nofun, fun h => absurd h hescape⟩, nofun, fun h => absurd h hescape⟩,
      fun h => absurd hzero h⟩
  simp only [if_neg hzero]
  by_cases hescape : t.Escapes a b
  · simp only [if_pos hescape]
    exact ⟨⟨⟨nofun, fun h => absurd h hzero⟩, nofun, fun h => absurd h hzero⟩,
      ⟨⟨fun _ => hescape, fun _ => rfl⟩, fun _ => hescape, fun _ => rfl⟩,
      fun _ h => absurd hescape h⟩
  · simp only [if_neg hescape]
    have hquotient := (exactly_result t "/" _).inside
      (fits_tdiv (fits_of_read hl) (fits_of_read hr) hzero hescape)
    have hremainder := (exactly_result t "%" _).inside (fits_tmod (fits_of_read hl) b)
    exact ⟨⟨⟨fun h => absurd h (hquotient.ne_error _), fun h => absurd h hzero⟩,
        fun h => absurd h (hremainder.ne_error _), fun h => absurd h hzero⟩,
      ⟨⟨fun h => absurd h (hquotient.ne_error _), fun h => absurd h hescape⟩,
        fun h => absurd h (hremainder.ne_error _), fun h => absurd h hescape⟩,
      fun _ _ => ⟨_, _, hquotient, hremainder, divides_tdiv a hzero⟩⟩

theorem arithmetic_exact (hl : t.read l = some a) (hr : t.read r = some b) :
    t.Arithmetic a b fun op => op.compute l r where
  add := by
    simp only [BinaryOp.compute, arithmetic_of_read hl hr]
    exact exactly_result t _ _
  sub := by
    simp only [BinaryOp.compute, arithmetic_of_read hl hr]
    exact exactly_result t _ _
  mul := by
    simp only [BinaryOp.compute, arithmetic_of_read hl hr]
    exact exactly_result t _ _
  division := division_exact hl hr

end Whole

/-! ## Operands that are not numbers of one type -/

/-- The variants that arithmetic is defined on. -/
def numeric : List String := ["Integer", "Byte", "Float"]

/-- The operands are of two different variants, or of one that arithmetic is not defined on. -/
def Unfit (l r : Value) : Prop :=
  l.typeName ≠ r.typeName ∨ l.typeName ∉ numeric ∨ r.typeName ∉ numeric

section

variable {l r : Value} {whole : Int → Int → Int} {real : Float → Float → Float}

theorem arithmetic_unfit (op : BinaryOp) (h : Unfit l r) :
    arithmetic op whole real l r = .error (.typeError op.symbol [l, r]) := by
  unfold arithmetic
  split
  · exact absurd h (by simp [Unfit, Value.typeName, numeric])
  · exact absurd h (by simp [Unfit, Value.typeName, numeric])
  · exact absurd h (by simp [Unfit, Value.typeName, numeric])
  · rfl

theorem division_unfit (op : BinaryOp) (h : Unfit l r) :
    division op whole real l r = .error (.typeError op.symbol [l, r]) := by
  rw [division_eq]
  split
  · exact absurd h (by simp [Unfit, Value.typeName, numeric])
  · exact absurd h (by simp [Unfit, Value.typeName, numeric])
  · exact absurd h (by simp [Unfit, Value.typeName, numeric])
  · rfl

theorem compute_unfit {op : BinaryOp} (hop : op ∈ [.add, .sub, .mul, .div, .rem])
    (h : Unfit l r) : op.compute l r = .error (.typeError op.symbol [l, r]) := by
  simp only [List.mem_cons, List.not_mem_nil, or_false] at hop
  rcases hop with rfl | rfl | rfl | rfl | rfl
  · exact arithmetic_unfit _ h
  · exact arithmetic_unfit _ h
  · exact arithmetic_unfit _ h
  · exact division_unfit _ h
  · exact division_unfit _ h

end

/-! ## Negation -/

theorem neg_exactly (a : Int64) : Whole.int.Exactly "-" (-a.toInt) (UnaryOp.neg.compute (.int a)) :=
  Whole.exactly_result .int "-" _

/-- The least integer is the only one without a negative. -/
theorem neg_overflow_iff (a : Int64) :
    UnaryOp.neg.compute (.int a) = .error (.overflow "-") ↔ a.toInt = -2 ^ 63 := by
  have hfits := Whole.fits_int a
  constructor
  · intro h
    by_contra hne
    refine ((neg_exactly a).inside ?_).ne_error _ h
    simp only [Whole.Fits, Whole.least, Whole.greatest] at *
    omega
  · intro h
    refine (neg_exactly a).outside fun hneg => ?_
    simp only [Whole.Fits, Whole.least, Whole.greatest] at *
    omega

/-! ## The operators applied -/

/-- Operators compute at once on operands that are no promises, on any machine, and leave the machine
as it is. -/
theorem apply_binary_direct {l r : Value} (hl : l.isPromise = false) (hr : r.isPromise = false)
    (op : BinaryOp) (E : Engine) (m : Machine) :
    Strict.apply E (.binary op) [l, r] m = EvalM.ofExcept (op.compute l r) m := by
  rw [Strict.apply_direct (by simp [hl, hr])]
  rfl

theorem apply_unary_direct {v : Value} (hv : v.isPromise = false) (op : UnaryOp) (E : Engine)
    (m : Machine) : Strict.apply E (.unary op) [v] m = EvalM.ofExcept (op.compute v) m := by
  rw [Strict.apply_direct (by simp [hv])]
  rfl

/-- Arithmetic on integers and bytes is exact or refused, negation included (bytes have none), and on
operands that are not of one numeric type it is a type error, whatever stands on the right; and this is
what the operators answer when they are applied. -/
theorem exact_arithmetic :
    (∀ a b : Int64, Whole.int.Arithmetic a.toInt b.toInt fun op => op.compute (.int a) (.int b)) ∧
    (∀ a b : UInt8, Whole.byte.Arithmetic a.toNat b.toNat fun op => op.compute (.byte a) (.byte b)) ∧
    (∀ a : Int64, Whole.int.Exactly "-" (-a.toInt) (UnaryOp.neg.compute (.int a)) ∧
      (UnaryOp.neg.compute (.int a) = .error (.overflow "-") ↔ a.toInt = -2 ^ 63)) ∧
    (∀ a : UInt8, UnaryOp.neg.compute (.byte a) = .error (.typeError "-" [.byte a])) ∧
    (∀ op ∈ [BinaryOp.add, .sub, .mul, .div, .rem], ∀ l r : Value, Unfit l r →
      op.compute l r = .error (.typeError op.symbol [l, r])) ∧
    ∀ (E : Engine) (m : Machine) (l r : Value), l.isPromise = false → r.isPromise = false →
      (∀ op, Strict.apply E (.binary op) [l, r] m = EvalM.ofExcept (op.compute l r) m) ∧
      ∀ op, Strict.apply E (.unary op) [l] m = EvalM.ofExcept (op.compute l) m :=
  ⟨fun _ _ => Whole.arithmetic_exact rfl rfl, fun _ _ => Whole.arithmetic_exact rfl rfl,
    fun a => ⟨neg_exactly a, neg_overflow_iff a⟩, fun _ => rfl,
    fun _ hop _ _ => compute_unfit hop,
    fun E m _ _ hl hr => ⟨fun op => apply_binary_direct hl hr op E m,
      fun op => apply_unary_direct hl op E m⟩⟩

end Deferral
