import Deferral.Eval.Call
import Deferral.Eval.Modules
import Deferral.Eval.Select

/-!
# Evaluation

`Engine.step` says how each expression, piece of work, frame and handler is run when an engine runs
its parts, and `engine` repeats that as often as its fuel allows. The fuel bounds how deeply these are
nested, not how many of them are run.
-/

set_option autoImplicit false

namespace Deferral

namespace Engine

def evalIdentifier (name : String) : EvalM Value := do
  let env ← EvalM.environment
  match env.get? name with
  | some v => pure v
  | none => EvalM.fail (.undefined name .identifier)

/-- The keys and values of a dictionary expression, in the order in which they are evaluated. -/
def flatten : List (Expr × Expr) → List Expr
  | [] => []
  | (key, value) :: rest => key :: value :: flatten rest

/-- Evaluates an expression of any kind. -/
def evalKind (E : Engine) : Expr → EvalM Value
  | .literal v => pure v
  | .identifier name => evalIdentifier name
  | .tuple items => do
    let vs ← E.evalItems items
    return .tuple vs
  | .sequence items => do
    let vs ← E.evalItems items
    return .seqOf vs
  | .set items => do
    let vs ← E.evalItems items
    Strict.apply E .set vs
  | .dict entries => do
    let vs ← E.evalItems (flatten entries)
    Strict.apply E .dict vs
  | .binary op left right =>
    match op with
    | .and | .or => do
      let l ← E.eval left
      E.whenReady l (.connectiveLeft op right)
    | _ => do
      let l ← E.eval left
      let r ← E.eval right
      Strict.apply E (.binary op) [l, r]
  | .unary op operand => do
    let v ← E.eval operand
    Strict.apply E (.unary op) [v]
  | .branch condition onTrue onFalse => do
    let c ← E.eval condition
    E.whenReady c (.branch onTrue onFalse)
  | .letIn bindings body => EvalM.inFrame (E.evalLet bindings body)
  | .block steps => EvalM.inFrame (E.evalBlock steps)
  | .select scrutinee arms => do
    let v ← E.eval scrutinee
    E.select v arms .noMatch
  | .lambda name params body => closure (name.getD anonymousName) params body
  | .call callee args location => do
    let f ← E.eval callee
    let vs ← E.evalItems args
    E.whenReady f (.call vs location)
  | .moduleDecl name exports functions => evalModuleDecl name exports functions
  | .moduleRef name => evalModuleRef name
  | .functionRef module name => do
    let m ← E.eval module
    E.whenReady m (.functionRef name)
  | .spawn function => do
    let f ← E.eval function
    E.whenReady f .spawn
  | .raise tag message => do
    let v ← E.eval message
    E.whenReady v (.raise tag)
  | .attempt body arms => E.evalAttempt body arms

/-- Evaluates an expression, unless evaluation has been interrupted. -/
def evalStep (E : Engine) (e : Expr) : EvalM Value := do
  if ← EvalM.gets (·.rest.interrupted) then EvalM.fail .interrupted
  else E.evalKind e

/-- Goes on with work. -/
def proceedStep (E : Engine) : Work → EvalM Value
  | .letIn bindings body => E.evalLet bindings body
  | .block steps => E.evalBlock steps
  | .yield v => pure v
  | .select value arms unmatched => E.select value arms unmatched

/-- The left operand of a connective decides, or the right one does. -/
def connectiveLeft (E : Engine) (op : BinaryOp) (right : Expr) (left : Value) : EvalM Value :=
  match left, op with
  | .bool false, .and => pure (.bool false)
  | .bool true, .or => pure (.bool true)
  | .bool _, _ => do
    let r ← E.eval right
    E.whenReady r (.connectiveRight op)
  | other, _ => EvalM.fail (.typeError op.symbol [other])

/-- Raises an error with a message and the active calls. -/
def raise (tag : String) (message : Value) : EvalM Value :=
  match message.text? with
  | some text => do
    let env ← EvalM.environment
    EvalM.fail (.raised tag text env.calls)
  | none => EvalM.fail (.typeError "raise" [message])

/-- Resumes a frame with the value it waited for. -/
def resumeStep (E : Engine) (frame : Frame) (v : Value) : EvalM Value :=
  match frame with
  | .branch onTrue onFalse =>
    match v with
    | .bool true => E.eval onTrue
    | .bool false => E.eval onFalse
    | other => EvalM.fail (.typeError "if" [other])
  | .connectiveLeft op right => E.connectiveLeft op right v
  | .connectiveRight op =>
    match v with
    | .bool b => pure (.bool b)
    | other => EvalM.fail (.typeError op.symbol [other])
  | .andThen next => E.proceed next
  | .bindKeys value pattern next => E.bindWith value pattern v.elements next
  | .bindRetry value pattern keys next => E.bindWith value pattern keys next
  | .bindGuard value guards next => do
    if ← EvalM.ofExcept (guardVerdict v) then E.checkGuards value guards next
    else EvalM.noMatch value
  | .armKeys trial => E.tryArm trial v.elements
  | .armRetry trial keys => E.tryArm trial keys
  | .armGuard trial bindings guards => do
    if ← EvalM.ofExcept (guardVerdict v) then E.checkArmGuards trial bindings guards
    else E.proceed trial.next
  | .alternative trial bindings body others => do
    if ← EvalM.ofExcept (guardVerdict v) then E.evalInArm bindings body
    else E.choose trial bindings others
  | .call args location => E.callValue v args location
  | .spawn => E.spawn v
  | .functionRef name => resolveIn v name
  | .raise tag => raise tag v

/-- Calls a function on a value on behalf of the host. -/
def callFunction (E : Engine) (function : Value) (args : List Value) : EvalM Value :=
  E.whenReady function (.call args none)

/-- What a handler for either outcome is called with, if there is a text for it. -/
def eitherArgument (m : Machine) : Outcome → Option Value
  | .ok v => some (.tuple [.symbol "ok", v])
  | .error e => m.directory.triple? [] e

/-- What a handler makes of an outcome. Only recovery and calls on either outcome look at a failure;
the others pass it on. -/
def handle (E : Engine) : Handler → Outcome → EvalM Outcome
  | .resume frame env, .ok v => EvalM.outcome (EvalM.within env (E.resume frame v))
  | .resume .., .error e => pure (.error e)
  | .compute operation, .ok v => EvalM.outcome (operation.run E.context v.elements)
  | .compute _, .error e => pure (.error e)
  | .recover arms env, .error e =>
    if e.catchable then EvalM.outcome (EvalM.within env (E.recover e arms)) else pure (.error e)
  | .recover .., .ok v => pure (.ok v)
  | .apply function env, .ok v =>
    EvalM.outcome (EvalM.within env (E.callFunction function [v]))
  | .apply .., .error e => pure (.error e)
  | .applyEither function env, o => do
    let argument ← EvalM.written fun m => eitherArgument m o
    EvalM.outcome (EvalM.within env (E.callFunction function [argument]))
  | .report label, o => do
    let shown ← EvalM.gets fun m =>
      match o with
      | .ok v => .ok (m.directory.snapshot v)
      | .error e => .error (m.directory.report e)
    EvalM.log (.outcome label shown)
    return o

def deliverStep (E : Engine) : Continuation Handler → Outcome → EvalM Unit :=
  Promise.deliverStep E.deliver E.handle

/-- One level of evaluation over an engine that runs the parts. -/
def step (E : Engine) : Engine where
  context := E.context
  eval := E.evalStep
  proceed := E.proceedStep
  resume := E.resumeStep
  deliver := E.deliverStep

/-- The engine that has no fuel left. -/
def exhausted (context : Context) : Engine where
  context := context
  eval _ := throw .outOfFuel
  proceed _ := throw .outOfFuel
  resume _ _ := throw .outOfFuel
  deliver _ _ := throw .outOfFuel

end Engine

/-- The engine with a given amount of fuel. -/
def engine (context : Context) : Nat → Engine
  | 0 => .exhausted context
  | n + 1 =>
    { context
      eval := fun e => (engine context n).evalStep e
      proceed := fun w => (engine context n).proceedStep w
      resume := fun f v => (engine context n).resumeStep f v
      deliver := fun k o => (engine context n).deliverStep k o }

theorem engine_context (context : Context) (n : Nat) : (engine context n).context = context := by
  cases n <;> rfl

/-- More fuel is one more level. -/
theorem engine_succ (context : Context) (n : Nat) :
    engine context (n + 1) = (engine context n).step := by
  simp [engine, Engine.step, engine_context]

end Deferral
