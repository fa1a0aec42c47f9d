import Deferral.Eval.Work
import Deferral.Module
import Deferral.Pattern.Match
import Deferral.Promise.Cascade

/-!
# The machine of evaluation

A machine is a promise store beside everything else that evaluation reads and changes: the environment
of the running code, the functions and modules that exist, the interrupt flag, the tasks that wait to
be run, and a log. Computations over it end with a value, or are cut short by an error, by a panic of
a host operation, or by running out of fuel.

A module is there as long as it is registered under its name or something else holds it. What else
holds a module is not modelled, but given with the machine.
-/

set_option autoImplicit false

namespace Deferral

/-- Why a computation was cut short. -/
inductive Abort where
  | error (e : Error)
  /-- A host operation gave up, with a text if it had one. -/
  | panic (payload : Option String)
  | outOfFuel

/-- The state of evaluation beside the promises. -/
structure Surroundings where
  env : Environment
  functions : Array Function
  modules : Registry
  /-- Which modules something else than the registry holds: a binding, a captured one, a host. -/
  held : Module → Bool
  interrupted : Bool
  /-- Tasks that wait to be run, oldest first. -/
  queue : List Task
  /-- Newest first. -/
  log : List LogEntry

/-- The state of evaluation. -/
abbrev Machine := World Handler Surroundings

/-- Computations of the evaluator. -/
abbrev EvalM := EStateM Abort Machine

namespace Machine

def empty : Machine := ⟨.empty, ⟨.empty, #[], [], fun _ => true, false, [], []⟩⟩

/-- A function as it was made. -/
def function? (m : Machine) (id : FunctionId) : Option Function := m.rest.functions[id.index]?

/-- Whether a module is there. -/
def present (m : Machine) (module : Module) : Bool :=
  m.rest.held module || Registry.get? m.rest.modules module.name == some module

/-- A function as it stands at this moment. -/
def current? (m : Machine) (id : FunctionId) : Option Function :=
  (m.function? id).map (Function.standing m.present)

/-- A function that is in no module has none to lose. -/
theorem current?_of_unlinked {m : Machine} {id : FunctionId} {f : Function}
    (hf : m.function? id = some f) (h : f.module = none) : m.current? id = some f := by
  rw [current?, hf, Option.map_some, Function.standing_of_unlinked h]

/-- What identities stand for at this moment. -/
def directory (m : Machine) : Directory :=
  ⟨m.current?, m.store.outcome?, m.store.promises.size⟩

/-- What matching may look at at this moment. -/
def sight (m : Machine) : Sight := ⟨m.store.outcome?, m.rest.env.getUser?⟩

end Machine

/-- What a host operation answers. -/
inductive Answer where
  | value (v : Value)
  | error (e : Error)
  | panic (payload : Option String)

/-- What a host operation does: its answer, the values it writes to the log before, and whether it
interrupts evaluation. -/
structure Reply where
  answer : Answer
  logged : List Value
  interrupts : Bool

/-- What becomes of a task that is submitted. -/
inductive Executor where
  /-- It is run at once. -/
  | immediate
  /-- It waits until the host runs it. -/
  | queued
  /-- It is refused. -/
  | refusing
  /-- It is run at once or waits, as the host decides for the promise that it is to settle. -/
  | deciding (atOnce : PromiseId → Bool)

/-- The settings of evaluation. -/
structure Context where
  maxCallDepth : Nat
  executor : Executor
  /-- The operations the host adds, by name. -/
  host : String → List Value → Reply

namespace EvalM

variable {α : Type}

def fail (e : Error) : EvalM α := throw (.error e)

/-- Goes on with a value, or fails. -/
def ofExcept : Except Error α → EvalM α
  | .ok a => pure a
  | .error e => fail e

def gets (f : Machine → α) : EvalM α := fun m => .ok (f m) m

def modifyRest (f : Surroundings → Surroundings) : EvalM Unit := fun m =>
  .ok () { m with rest := f m.rest }

def environment : EvalM Environment := gets (·.rest.env)

def setEnvironment (env : Environment) : EvalM Unit := modifyRest ({ · with env })

def modifyEnvironment (f : Environment → Environment) : EvalM Unit :=
  modifyRest fun s => { s with env := f s.env }

/-- Runs `after` on the state in which a computation ends, however it ends. -/
def ensuring (x : EvalM α) (after : Machine → Machine) : EvalM α := fun m =>
  match x m with
  | .ok a m => .ok a (after m)
  | .error e m => .error e (after m)

/-- Runs a computation in a frame of its own. -/
def inFrame (x : EvalM α) : EvalM α := do
  modifyEnvironment Environment.openFrame
  ensuring x fun m => { m with rest := { m.rest with env := m.rest.env.closeFrame } }

/-- Runs a computation in another environment and comes back to the present one. -/
def within (env : Environment) (x : EvalM α) : EvalM α := do
  let saved ← environment
  setEnvironment env
  ensuring x fun m => { m with rest := { m.rest with env := saved } }

/-- Turns an error into a result. Panics and running out of fuel go on. -/
def outcome (x : EvalM α) : EvalM (Except Error α) := fun m =>
  match x m with
  | .ok a m => .ok (.ok a) m
  | .error (.error e) m => .ok (.error e) m
  | .error abort m => .error abort m

/-- Turns an error or a panic into a result. -/
def contained (x : EvalM α) : EvalM (Except Error α) := fun m =>
  match x m with
  | .ok a m => .ok (.ok a) m
  | .error (.error e) m => .ok (.error e) m
  | .error (.panic payload) m => .ok (.error (.taskFailed (payload.getD "task panicked"))) m
  | .error .outOfFuel m => .error .outOfFuel m

/-- Marks errors of a function body with the calls that are active in it. -/
def traced (stack : StackTrace) (x : EvalM α) : EvalM α := fun m =>
  match x m with
  | .error (.error e) m => .error (.error (e.withStack stack)) m
  | result => result

/-- Goes on with something that is put into text. Without a text this never comes to an end, whatever
the fuel. -/
def written (text : Machine → Option α) : EvalM α := fun m =>
  match text m with
  | some a => .ok a m
  | none => .error .outOfFuel m

/-- The quoted text of a value. -/
def quoted (v : Value) : EvalM String := written (·.directory.quoted? v)

/-- Fails because nothing fits a value. -/
def noMatch (v : Value) : EvalM α := do
  let text ← quoted v
  fail (.noMatch text)

/-- A new function. -/
def addFunction (f : Function) : EvalM FunctionId := fun m =>
  .ok ⟨m.rest.functions.size⟩ { m with rest := { m.rest with functions := m.rest.functions.push f } }

def log (entry : LogEntry) : EvalM Unit := modifyRest fun s => { s with log := entry :: s.log }

/-- Writes values to the log as they stand now. -/
def logValues (values : List Value) : EvalM Unit := fun m =>
  let entries := values.map fun v => LogEntry.value (m.directory.snapshot v)
  .ok () { m with rest := { m.rest with log := entries.reverse ++ m.rest.log } }

end EvalM

end Deferral
