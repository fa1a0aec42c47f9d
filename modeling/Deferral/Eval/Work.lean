import Deferral.Function
import Deferral.Promise.Store
import Deferral.Snapshot

/-!
# Work that is left to do

Evaluation never waits. Where it needs a value that is not there yet, it puts down what is left to do
as data and hands it to the promise. `Work` needs no value to go on; a `Frame` goes on with the value
it has been waiting for; a `Handler` is a frame, or an operation, together with what it has to be run
in. All of them are plain data.
-/

set_option autoImplicit false

namespace Deferral

/-- What happens when no arm of a selection fits. -/
inductive Unmatched where
  | noMatch
  /-- The error that was being handled is the outcome. -/
  | rethrow (e : Error)

/-- Something to go on with. -/
inductive Work where
  /-- The remaining bindings of a `let`, and its body. -/
  | letIn (bindings : List (Pattern × Expr)) (body : Expr)
  /-- The remaining steps of a block. -/
  | block (steps : List Step)
  /-- A value that is already known. -/
  | yield (v : Value)
  /-- The arms of a selection that have not been tried. -/
  | select (value : Value) (arms : List Arm) (unmatched : Unmatched)

/-- An arm that is being tried, with what comes after it. -/
structure Trial where
  value : Value
  arm : Arm
  later : List Arm
  unmatched : Unmatched

/-- What to do when the arm turns out not to fit. -/
def Trial.next (t : Trial) : Work := .select t.value t.later t.unmatched

/-- Something to go on with once a value is there. -/
inductive Frame where
  /-- The condition of a branch. -/
  | branch (onTrue onFalse : Expr)
  /-- The left operand of a connective. -/
  | connectiveLeft (op : BinaryOp) (right : Expr)
  /-- The right operand of a connective. -/
  | connectiveRight (op : BinaryOp)
  /-- A value that only had to be there. -/
  | andThen (next : Work)
  /-- The keys of a binding's pattern, as a tuple. -/
  | bindKeys (value : Value) (pattern : Pattern) (next : Work)
  /-- A promise inside the value of a binding. -/
  | bindRetry (value : Value) (pattern : Pattern) (keys : List Value) (next : Work)
  /-- A guard of a binding's pattern, with the ones after it. -/
  | bindGuard (value : Value) (guards : List Expr) (next : Work)
  /-- The keys of an arm's pattern, as a tuple. -/
  | armKeys (trial : Trial)
  /-- A promise inside the value of a selection. -/
  | armRetry (trial : Trial) (keys : List Value)
  /-- A guard of an arm's pattern, with the ones after it. -/
  | armGuard (trial : Trial) (bindings : List (String × Value)) (guards : List Expr)
  /-- The guard of an alternative, with its body and the alternatives after it. -/
  | alternative (trial : Trial) (bindings : List (String × Value)) (body : Expr)
    (others : List (Option Expr × Expr))
  /-- The function of a call. -/
  | call (args : List Value) (location : Option Location)
  /-- The function of a task. -/
  | spawn
  /-- The module of a qualified name. -/
  | functionRef (name : String)
  /-- The message of an error. -/
  | raise (tag : String)

/-- Operations that need all of their operands. -/
inductive Strict where
  | binary (op : BinaryOp)
  | unary (op : UnaryOp)
  | set
  | dict
  | native (operation : Native)

/-- What is made of the outcome of a promise. -/
inductive Handler where
  /-- Go on with the value. -/
  | resume (frame : Frame) (env : Environment)
  /-- Compute with the operands in a tuple. -/
  | compute (operation : Strict)
  /-- Match a failure against arms. -/
  | recover (arms : List Arm) (env : Environment)
  /-- Call a function on the value. -/
  | apply (function : Value) (env : Environment)
  /-- Call a function on the value or the failure. -/
  | applyEither (function : Value) (env : Environment)
  /-- Write the outcome to the log. -/
  | report (label : String)

/-- A function call that is to settle a promise. -/
structure Task where
  function : FunctionId
  caller : Environment
  target : PromiseId

/-- An entry of the log. -/
inductive LogEntry where
  | value (v : Snapshot)
  | outcome (label : String) (o : Except (ErrorReport Snapshot) Snapshot)

end Deferral
