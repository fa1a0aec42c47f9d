import Deferral.Eval.Native
import Deferral.Operator.Compute

/-!
# Engines

Evaluation is recursive in four ways: expressions are evaluated inside expressions, work is proceeded
with, frames are resumed, and continuations are delivered. An `Engine` bundles the four, and each
construct of the language is a function of the engine that runs its parts. Whatever needs a value that
is a promise goes through `Engine.whenReady` or `Strict.apply`: nothing ever waits.
-/

set_option autoImplicit false

namespace Deferral

/-- How the parts of a program are run. -/
structure Engine where
  context : Context
  eval : Expr → EvalM Value
  proceed : Work → EvalM Value
  resume : Frame → Value → EvalM Value
  deliver : Continuation Handler → Outcome → EvalM Unit

namespace Engine

/-- Goes on with a value. If it is a promise, the frame is left with the promise, together with a copy
of the environment, and the result is a promise for what will come of it. -/
def whenReady (E : Engine) (v : Value) (frame : Frame) : EvalM Value :=
  match v with
  | .promise p => do
    let env ← EvalM.environment
    let q ← Promise.derive E.deliver p (.resume frame env)
    return .promise q
  | ready => E.resume frame ready

/-- Evaluates expressions from left to right. -/
def evalItems (E : Engine) : List Expr → EvalM (List Value)
  | [] => pure []
  | e :: rest => do
    let v ← E.eval e
    let vs ← evalItems E rest
    return v :: vs

/-- Goes on with a list of values, as a tuple, once none of them is a promise. -/
def whenAllReady (E : Engine) (vs : List Value) (frame : Frame) (now : List Value → EvalM Value) :
    EvalM Value :=
  if vs.any Value.isPromise then do
    let p ← Promise.all E.deliver vs
    E.whenReady (.promise p) frame
  else now vs

end Engine

namespace Strict

/-- Runs an operation on operands that are all there. -/
def run (context : Context) : Strict → List Value → EvalM Value
  | .binary op, [l, r] => EvalM.ofExcept (op.compute l r)
  | .binary op, _ => EvalM.fail (.typeError op.symbol [])
  | .unary op, [v] => EvalM.ofExcept (op.compute v)
  | .unary op, _ => EvalM.fail (.typeError op.symbol [])
  | .set, vs => pure (.setOf vs)
  | .dict, vs => pure (.dictOf (Value.pairUp vs))
  | .native operation, vs => operation.run context.host vs

/-- Applies an operation. If an operand is a promise, the result is a promise for what the operation
gives once all operands are there. -/
def apply (E : Engine) (operation : Strict) (operands : List Value) : EvalM Value :=
  if operands.any Value.isPromise then do
    let p ← Promise.all E.deliver operands
    let q ← Promise.derive E.deliver p (.compute operation)
    return .promise q
  else operation.run E.context operands

end Strict

end Deferral
