import Deferral.Session.Command

/-!
# Operations on operands that come later

Applies an operation with some operands held back as promises, and watches the result while the
operands arrive one by one.
-/

set_option autoImplicit false

namespace Deferral.Session

/-- Holds back the operand at a place. -/
def holdBack (operands : List Value) (place : Nat) : EvalM (List Value × PromiseId) := do
  let p ← Promise.new
  return (operands.set place (.promise p), p)

/-- Holds back the operands at several places; gives the operands to use, and each promise with the
operand it stands for. -/
def holdBackAll (given : List Value) :
    List Nat → List Value → EvalM (List Value × List (PromiseId × Value))
  | [], operands => pure (operands, [])
  | place :: rest, operands => do
    let (operands, p) ← holdBack operands place
    let (operands, held) ← holdBackAll given rest operands
    return (operands, (p, given[place]?.getD .unit) :: held)

/-- Lets the held operands arrive in order, and shows the result after each. -/
def arrivals (s : Session) (result : Outcome) : List (PromiseId × Value) → List Shown
  | [] => []
  | (p, v) :: rest =>
    let (_, s) := s.perform (Promise.fulfil s.engine.deliver p (.ok v))
    s.shown result :: arrivals s result rest

/-- The result of an operation right after it is applied, and after each operand that was held back
has arrived. -/
def applyHeld (operation : Strict) (operands : List Value) (places : List Nat) :
    Except Abort (Shown × List Shown) :=
  let s := start .immediate 1000 false false
  let (r, s) := s.perform do
    let (used, held) ← holdBackAll operands places operands
    let result ← EvalM.outcome (Strict.apply s.engine operation used)
    return (result, held)
  match r with
  | .ok (result, held) => .ok (s.shown result, s.arrivals result held)
  | .error abort => .error abort

end Deferral.Session
