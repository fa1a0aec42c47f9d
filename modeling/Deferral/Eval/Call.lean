import Deferral.Eval.Engine

/-!
# Calls and tasks

A call checks the number of arguments first. A native needs all of them; code gets them as they are,
in an environment made of what the function captured, the function itself or its module's functions,
and the parameters. The depth of calls is limited, and an error that leaves a body is traced. A task is
a call without arguments whose outcome, or panic, settles a promise.
-/

set_option autoImplicit false

namespace Deferral

/-- The stack entry of a call. -/
def callFrame (f : Function) (location : Option Location) : StackFrame :=
  { source := (location.map (·.source)).getD "<unknown>"
    function := f.qualifiedName
    line := location.map (·.line)
    column := location.map (·.column) }

/-- The names a function body sees beside its captures: a module's function sees all functions of the
module and runs as code of the module, any other function with a name sees itself. -/
def bindSelf (id : FunctionId) (f : Function) (env : Environment) : Environment :=
  match f.module with
  | some m =>
    { env.defineAll (m.functions.map fun g => (g.1, .function g.2)) with module := some m.name }
  | none => if f.name == anonymousName then env else env.define f.name (.function id)

/-- The environment a function body runs in. -/
def bodyEnvironment (maxDepth : Nat) (id : FunctionId) (f : Function) (args : List Value)
    (location : Option Location) (caller : Environment) : Except Error Environment := do
  let env ← (Environment.forCall f.captures caller).enterCall (callFrame f location) maxDepth
  return (bindSelf id f env).defineAll (f.params.zip args)

namespace Engine

/-- Calls a function. -/
def invoke (E : Engine) (id : FunctionId) (f : Function) (args : List Value)
    (location : Option Location) : EvalM Value :=
  if args.length ≠ f.arity then EvalM.fail (.arity f.qualifiedName f.arity args.length)
  else
    match f.body with
    | .native operation _ => Strict.apply E (.native operation) args
    | .code _ body => do
      let caller ← EvalM.environment
      let env ← EvalM.ofExcept
        (bodyEnvironment E.context.maxCallDepth id f args location caller)
      EvalM.within env (EvalM.traced env.calls (E.eval body))

/-- Fails because a value is no function. -/
def notCallable (v : Value) : EvalM Value := do
  let text ← EvalM.quoted v
  EvalM.fail (.notCallable text)

/-- Calls a value. -/
def callValue (E : Engine) (callee : Value) (args : List Value) (location : Option Location) :
    EvalM Value :=
  match callee with
  | .function id => do
    match ← EvalM.gets (·.current? id) with
    | some f => E.invoke id f args location
    | none => notCallable callee
  | _ => notCallable callee

/-- Runs a task and settles its promise with the outcome. -/
def runTask (E : Engine) (task : Task) : EvalM Unit := do
  let outcome ← EvalM.contained <| EvalM.within task.caller <|
    E.callValue (.function task.function) [] none
  Promise.fulfil E.deliver task.target outcome

/-- Puts a task at the end of the queue. -/
def enqueue (task : Task) : EvalM Unit :=
  EvalM.modifyRest fun s => { s with queue := s.queue ++ [task] }

/-- Submits a function without parameters as a task; the result is the task's promise. -/
def submit (E : Engine) (id : FunctionId) : EvalM Value := do
  let caller ← EvalM.environment
  let target ← Promise.new
  let task : Task := ⟨id, caller, target⟩
  match E.context.executor with
  | .immediate => E.runTask task
  | .queued => enqueue task
  | .refusing => Promise.fulfil E.deliver target (.error (.taskFailed "rejected by host"))
  | .deciding atOnce => if atOnce target then E.runTask task else enqueue task
  return .promise target

/-- Starts the function of a task. -/
def spawn (E : Engine) (v : Value) : EvalM Value :=
  match v with
  | .function id => do
    match ← EvalM.gets (·.current? id) with
    | some f =>
      if f.arity = 0 then E.submit id
      else EvalM.fail (.arity f.qualifiedName 0 f.arity)
    | none => EvalM.fail (.typeError "async" [v])
  | other => EvalM.fail (.typeError "async" [other])

end Engine

end Deferral
