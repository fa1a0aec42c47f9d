import Deferral.Eval.Engine

/-!
# Binding

`let` and blocks bind names by matching a pattern against a value. The keys of the pattern are
evaluated first, then the pattern is matched, then its guards are evaluated; each of these can leave
the rest of the work with a promise. A value that does not fit, or a guard that does not hold, is an
error.
-/

set_option autoImplicit false

namespace Deferral

/-- A function of the given code, over everything in scope. -/
def closure (name : String) (params : List String) (body : Expr) : EvalM Value := do
  let env ← EvalM.environment
  let id ← EvalM.addFunction ⟨name, .code params body, env.bindings, none⟩
  return .function id

/-- The verdict of a guard. -/
def guardVerdict : Value → Except Error Bool
  | .bool b => .ok b
  | other => .error (.typeError "guard" [other])

namespace Engine

/-- Evaluates the guards of a pattern that has been bound, then goes on. -/
def checkGuards (E : Engine) (value : Value) (guards : List Expr) (next : Work) : EvalM Value :=
  match guards with
  | [] => E.proceed next
  | guard :: rest => do
    let holds ← E.eval guard
    E.whenReady holds (.bindGuard value rest next)

/-- Binds a pattern whose keys are known, then goes on. -/
def bindWith (E : Engine) (value : Value) (pattern : Pattern) (keys : List Value) (next : Work) :
    EvalM Value := do
  let verdict ← EvalM.gets fun m => pattern.matching m.sight value keys
  match ← EvalM.ofExcept verdict with
  | .noMatch => EvalM.noMatch value
  | .pending p => E.whenReady (.promise p) (.bindRetry value pattern keys next)
  | .matched m => do
    EvalM.modifyEnvironment (·.defineAll m.bindings)
    E.checkGuards value m.guards next

/-- Binds a pattern to a value in the present frame, then goes on. -/
def bind (E : Engine) (value : Value) (pattern : Pattern) (next : Work) : EvalM Value := do
  let keys ← E.evalItems pattern.keys
  E.whenAllReady keys (.bindKeys value pattern next) fun keys => E.bindWith value pattern keys next

/-- The value of a binding. A lambda bound to a plain name takes that name, so that it can call
itself. -/
def bindingValue (E : Engine) (pattern : Pattern) (e : Expr) : EvalM Value :=
  match pattern, e with
  | .bind name, .lambda _ params body => closure name params body
  | _, e => E.eval e

/-- The bindings of a `let` in order, then its body. -/
def evalLet (E : Engine) (bindings : List (Pattern × Expr)) (body : Expr) : EvalM Value :=
  match bindings with
  | [] => E.eval body
  | (pattern, e) :: rest => do
    let v ← E.bindingValue pattern e
    E.bind v pattern (.letIn rest body)

/-- The steps of a block in order. The value of the last one is the value of the block, and every other
one has to be there before the next is evaluated. -/
def evalBlock (E : Engine) (steps : List Step) : EvalM Value :=
  match steps with
  | [] => pure .unit
  | [.run e] => E.eval e
  | .run e :: rest => do
    let v ← E.eval e
    E.whenReady v (.andThen (.block rest))
  | [.bind pattern e] => do
    let v ← E.eval e
    E.bind v pattern (.yield v)
  | .bind pattern e :: rest => do
    let v ← E.eval e
    E.bind v pattern (.block rest)

end Engine

end Deferral
