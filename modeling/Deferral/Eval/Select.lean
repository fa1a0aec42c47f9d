import Deferral.Eval.Bind

/-!
# Selection

The arms of a selection are tried in order. Of an arm, the keys are evaluated first, then the pattern
is matched, then the guards inside the pattern and the guards of the alternatives are evaluated, each
in a frame that holds the arm's bindings. What does not fit leads to the next arm. An error that is
handled goes through the same selection, as a triple.
-/

set_option autoImplicit false

namespace Deferral.Engine

/-- Evaluates an expression in a frame that holds an arm's bindings. -/
def evalInArm (E : Engine) (bindings : List (String × Value)) (e : Expr) : EvalM Value :=
  EvalM.inFrame do
    EvalM.modifyEnvironment (·.defineAll bindings)
    E.eval e

/-- The first alternative whose guard holds. -/
def choose (E : Engine) (trial : Trial) (bindings : List (String × Value))
    (alternatives : List (Option Expr × Expr)) : EvalM Value :=
  match alternatives with
  | [] => E.proceed trial.next
  | (none, body) :: _ => E.evalInArm bindings body
  | (some guard, body) :: others => do
    let holds ← E.evalInArm bindings guard
    E.whenReady holds (.alternative trial bindings body others)

/-- The guards inside an arm's pattern, then its alternatives. -/
def checkArmGuards (E : Engine) (trial : Trial) (bindings : List (String × Value))
    (guards : List Expr) : EvalM Value :=
  match guards with
  | [] => E.choose trial bindings trial.arm.alternatives
  | guard :: rest => do
    let holds ← E.evalInArm bindings guard
    E.whenReady holds (.armGuard trial bindings rest)

/-- Tries an arm whose keys are known. -/
def tryArm (E : Engine) (trial : Trial) (keys : List Value) : EvalM Value := do
  let verdict ← EvalM.gets fun m => trial.arm.pattern.matching m.sight trial.value keys
  match ← EvalM.ofExcept verdict with
  | .noMatch => E.proceed trial.next
  | .pending p => E.whenReady (.promise p) (.armRetry trial keys)
  | .matched m => E.checkArmGuards trial m.bindings m.guards

/-- Tries arms in order. -/
def select (E : Engine) (value : Value) (arms : List Arm) (unmatched : Unmatched) : EvalM Value :=
  match arms with
  | [] =>
    match unmatched with
    | .noMatch => EvalM.noMatch value
    | .rethrow e => EvalM.fail e
  | arm :: later => do
    let trial : Trial := ⟨value, arm, later, unmatched⟩
    let keys ← E.evalItems arm.pattern.keys
    E.whenAllReady keys (.armKeys trial) fun keys => E.tryArm trial keys

/-- Matches an error against arms; if none fits, the error goes on. -/
def recover (E : Engine) (e : Error) (arms : List Arm) : EvalM Value := do
  let triple ← EvalM.written fun m => m.directory.triple? m.rest.env.calls e
  E.select triple arms (.rethrow e)

/-- Evaluates a body in a frame of its own, and matches its failure, now or later, against arms. -/
def evalAttempt (E : Engine) (body : Expr) (arms : List Arm) : EvalM Value := do
  match ← EvalM.outcome (EvalM.inFrame (E.eval body)) with
  | .ok (.promise p) => do
    let env ← EvalM.environment
    let q ← Promise.derive E.deliver p (.recover arms env)
    return .promise q
  | .ok v => pure v
  | .error e => if e.catchable then E.recover e arms else EvalM.fail e

end Deferral.Engine
