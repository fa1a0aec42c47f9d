import Deferral.Eval.Step

/-!
# Errors of the language itself

The operators, the prelude, declarations and qualified names fail in ways of their own, but none of
them fails with an error that carries a stack, nor with one about the depth of calls. Those come from
calls and from `raise` alone.
-/

set_option autoImplicit false

namespace Deferral

/-- An error that carries no stack and is not about the depth of calls. -/
def Error.isPlain : Error → Bool
  | .stackOverflow .. => false
  | .raised .. => false
  | .traced .. => false
  | _ => true

theorem Error.root_withStack (stack : StackTrace) (e : Error) : (e.withStack stack).root = e.root := by
  cases e <;> rfl

/-- If this is an error, it is a plain one. -/
def FailsPlainly {α : Type} (r : Except Error α) : Prop := ∀ e, r = .error e → e.isPlain = true

namespace FailsPlainly

variable {α β : Type} {r : Except Error α}

theorem ok (a : α) : FailsPlainly (.ok a) := nofun

theorem error {e : Error} (h : e.isPlain = true) : FailsPlainly (.error e : Except Error α) := by
  intro e' he
  obtain rfl := Except.error.inj he
  exact h

theorem bind {f : α → Except Error β} (hr : FailsPlainly r) (hf : ∀ a, FailsPlainly (f a)) :
    FailsPlainly (r >>= f) := by
  cases r with
  | ok a => exact hf a
  | error e => exact error (hr e rfl)

end FailsPlainly

namespace Operator

variable (op : BinaryOp) (l r : Value)

theorem plain_mismatch : FailsPlainly (.error (mismatch op l r) : Outcome) := .error rfl

theorem plain_intResult (symbol : String) (n : Int) : FailsPlainly (intResult symbol n) := by
  unfold intResult
  split
  · exact .ok _
  · exact .error rfl

theorem plain_byteResult (symbol : String) (n : Int) : FailsPlainly (byteResult symbol n) := by
  unfold byteResult
  split
  · exact .ok _
  · exact .error rfl

theorem plain_arithmetic (whole : Int → Int → Int) (real : Float → Float → Float) :
    FailsPlainly (arithmetic op whole real l r) := by
  unfold arithmetic
  split
  · exact plain_intResult _ _
  · exact plain_byteResult _ _
  · exact .ok _
  · exact plain_mismatch op _ _

theorem plain_division (whole : Int → Int → Int) (real : Float → Float → Float) :
    FailsPlainly (division op whole real l r) := by
  rw [division_eq]
  split
  · split
    · exact .error rfl
    · split
      · exact .error rfl
      · exact plain_intResult _ _
  · split
    · exact .error rfl
    · exact plain_byteResult _ _
  · exact .ok _
  · exact plain_mismatch op _ _

theorem plain_shift (int : Int64 → Int64 → Int64) (byte : UInt8 → UInt8 → UInt8) :
    FailsPlainly (shift op int byte l r) := by
  rw [shift_eq]
  split
  · split
    · exact .ok _
    · exact .error rfl
  · split
    · exact .ok _
    · exact .error rfl
  · exact plain_mismatch op _ _

theorem plain_comparison (int : Int → Int → Bool) (real : Float → Float → Bool) :
    FailsPlainly (comparison op int real l r) := by
  unfold comparison
  split
  case h_5 => exact plain_mismatch op _ _
  all_goals exact .ok _

theorem plain_connective (holds : Bool → Bool → Bool) : FailsPlainly (connective op holds l r) := by
  unfold connective
  split
  · exact .ok _
  · exact plain_mismatch op _ _

theorem plain_algebra (int : Int64 → Int64 → Int64) (byte : UInt8 → UInt8 → UInt8)
    (set : Items → Items → Items) (dict : Entries → Entries → Entries) :
    FailsPlainly (algebra op int byte set dict l r) := by
  unfold algebra
  split
  case h_5 => exact plain_mismatch op _ _
  all_goals exact .ok _

theorem plain_join : FailsPlainly (join l r) := by
  unfold join
  split
  · exact .ok _
  · exact plain_mismatch _ _ _

theorem plain_pushFront : FailsPlainly (pushFront l r) := by
  unfold pushFront
  split
  · exact .ok _
  · exact plain_mismatch _ _ _

theorem plain_pushBack : FailsPlainly (pushBack l r) := by
  unfold pushBack
  split
  · exact .ok _
  · exact plain_mismatch _ _ _

theorem plain_member : FailsPlainly (member l r) := by
  unfold member
  split
  case h_4 => exact plain_mismatch _ _ _
  all_goals exact .ok _

end Operator

open Operator in
theorem BinaryOp.plain_compute (op : BinaryOp) (l r : Value) : FailsPlainly (op.compute l r) := by
  unfold compute
  cases op with
  | add | sub | mul => exact plain_arithmetic _ l r _ _
  | div | rem => exact plain_division _ l r _ _
  | eq | ne => exact .ok _
  | lt | le | gt | ge => exact plain_comparison _ l r _ _
  | and | or => exact plain_connective _ l r _
  | bitAnd | bitOr | bitXor => exact plain_algebra _ l r _ _ _ _
  | shiftLeft | shiftRight => exact plain_shift _ l r _ _
  | join => exact plain_join l r
  | pushFront => exact plain_pushFront l r
  | pushBack => exact plain_pushBack l r
  | mem => exact plain_member l r

theorem UnaryOp.plain_compute (op : UnaryOp) (v : Value) : FailsPlainly (op.compute v) := by
  unfold UnaryOp.compute
  split
  · exact Operator.plain_intResult _ _
  case h_6 => exact .error rfl
  all_goals exact .ok _

namespace Module

theorem plain_resolveInternal (m : Module) (name : String) :
    FailsPlainly (m.resolveInternal name) := by
  unfold resolveInternal
  split
  · exact .ok _
  · exact .error rfl

theorem plain_resolve (m : Module) (name : String) : FailsPlainly (m.resolve name) := by
  unfold resolve
  split
  · rename_i e he
    exact .error (m.plain_resolveInternal name e he)
  · split
    · exact .ok _
    · exact .error rfl

theorem plain_checkExports (name : ModuleName) (exports defined : List String) :
    FailsPlainly (checkExports name exports defined) := by
  unfold checkExports
  split
  · exact .error rfl
  · exact .ok _

theorem plain_checkDistinct (name : ModuleName) (declared : List String) :
    FailsPlainly (checkDistinct name declared) := by
  unfold checkDistinct
  split
  · exact .error rfl
  · exact .ok _

theorem plain_declare (name : ModuleName) (exports : List String)
    (functions : List (String × FunctionId)) : FailsPlainly (declare name exports functions) :=
  .bind (plain_checkExports _ _ _) fun _ => .bind (plain_checkDistinct _ _) fun _ => .ok _

theorem plain_build (name : ModuleName) (exports : List String)
    (functions : List (String × FunctionId)) : FailsPlainly (build name exports functions) :=
  .bind (plain_checkExports _ _ _) fun _ => .ok _

end Module

theorem plain_guardVerdict (v : Value) : FailsPlainly (guardVerdict v) := by
  unfold guardVerdict
  split
  · exact .ok _
  · exact .error rfl

end Deferral
