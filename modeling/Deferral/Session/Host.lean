import Deferral.Eval.Machine

/-!
# The operations of a session's host

A session gives programs six operations of its own: one writes to the log, one makes a pair, one fails,
one interrupts evaluation, and two give up with a panic.
-/

set_option autoImplicit false

namespace Deferral.Session

/-- The operations of the host with their arities, in the order in which they are defined. -/
def hostNatives : List (String × Nat) :=
  [("emit", 1), ("pair", 2), ("fail", 1), ("interrupt", 0), ("kaboom", 0), ("explode", 1)]

/-- What each operation of the host does. -/
def host (name : String) (args : List Value) : Reply :=
  match name, args with
  | "emit", [v] => ⟨.value v, [v], false⟩
  | "pair", _ => ⟨.value (.tuple args), [], false⟩
  | "fail", _ => ⟨.error (.typeError "fail" args), [], false⟩
  | "interrupt", _ => ⟨.value .unit, [], true⟩
  | "kaboom", _ => ⟨.panic (some "kaboom"), [], false⟩
  | "explode", [v] => ⟨.panic v.text?, [], false⟩
  | _, _ => ⟨.error (.undefined name .identifier), [], false⟩

end Deferral.Session
