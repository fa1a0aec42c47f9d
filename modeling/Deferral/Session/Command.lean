import Deferral.Session.Basic
import Deferral.Session.Inspection

/-!
# What a host can ask of a session

A `Command` is one thing a host asks for and a `Response` what it is shown; `Session.run` carries a
command out. Nothing a host asks for can stop a session: an error is a response like any other.
-/

set_option autoImplicit false

namespace Deferral

/-- What a host can ask for. -/
inductive Command where
  /-- Evaluate, and put the result aside. -/
  | eval (e : Expr) (save : Option String)
  /-- Evaluate and look through the promise that may come of it. -/
  | force (e : Expr) (save : Option String)
  | call (function : Expr) (args : List Value) (save : Option String)
  /-- Run some of the tasks that wait, from the front or from the back. -/
  | runTasks (count : Nat) (fromBack : Bool)
  | inspect (e : Expr) (places : List UInt64)
  | compare (a b : Expr)
  /-- Match a pattern, with its keys if they are not to be evaluated, and define what it binds if that
  is wanted. -/
  | tryMatch (value : Value) (pattern : Pattern) (keys : Option (List Value)) (define : Bool)
  /-- Make a promise, pending or with an outcome. -/
  | promise (name : String) (outcome : Option Outcome) (hidden : Bool)
  | fulfil (name : String) (outcome : Outcome)
  | peek (name : String)
  /-- Make a promise for a function of the value of another. -/
  | map (name source : String) (function : Expr) (hidden : Bool)
  /-- Make a promise for a function of either outcome of another. -/
  | mapEither (name source : String) (function : Expr) (hidden : Bool)
  | all (name : String) (operands : List Value) (hidden : Bool)
  /-- Have the outcome of a promise written to the log. -/
  | observe (name label : String)
  | same (a b : String)
  | interrupt
  | reset
  | define (name : String) (value : Value)
  | defineAs (name : String) (e : Expr)
  | openFrame
  | closeFrame
  | showEnvironment
  /-- Show the environment a function of everything in scope would start from. -/
  | showForCall
  | lookup (name : String)
  | enterCall (frame : StackFrame) (max : Nat)
  | setModule (name : Option ModuleName)
  /-- Build a module of functions that are not linked to it. -/
  | register (name : ModuleName) (exports : List String) (functions : List FunctionDecl)
  | showModule (name : ModuleName) (names : List String)

/-- An outcome as hosts are shown it. -/
abbrev Shown := Except (ErrorReport Snapshot) Snapshot

/-- How a name resolves in a module. -/
structure Resolution where
  exported : Bool
  lookup : Bool
  outside : Shown
  inside : Shown

/-- What a host is shown. -/
inductive Response where
  | outcome (o : Shown)
  /-- The promise that was to be looked through is pending. -/
  | blocked
  | ran (count left : Nat) (saved : List (String × Snapshot))
  | inspection (i : Inspection)
  | comparison (c : Comparison)
  | matched (keys : List Snapshot) (bindings : List (String × Snapshot)) (guards : List String)
  | unmatched (keys : List Snapshot)
  | awaits (keys : List Snapshot) (promise : Option String)
  | promise (state : Snapshot)
  | fulfilled (state : Snapshot) (saved : List (String × Snapshot))
  | peeked (state : Snapshot) (pending : Bool) (quoted : Option String)
  | same (b : Bool)
  | interrupted (b : Bool)
  | size (n : Nat)
  | depth (n : Nat)
  | closed (depth size : Nat)
  | environment (env : Environment)
  | binding (value user : Option Snapshot) (contains : Bool) (builtin : Option Bool)
  | callDepth (n : Nat)
  | module (name : Option String)
  | registered (m : Snapshot) (modules : Nat)
  | moduleInfo (m : Option Snapshot) (modules : Nat) (names : List Resolution)
  /-- The command names a promise that was never made. -/
  | unknownPromise (name : String)
  /-- A host operation gave up outside of any task. -/
  | panicked (payload : Option String)
  | outOfFuel

namespace Session

variable {α : Type}

/-- An outcome as it stands now. -/
def shown (s : Session) : Outcome → Shown
  | .ok v => .ok (s.directory.snapshot v)
  | .error e => .error (s.directory.report e)

/-- The response to a computation that was cut short. -/
def aborted (s : Session) : Abort → Response
  | .error e => .outcome (.error (s.directory.report e))
  | .panic payload => .panicked payload
  | .outOfFuel => .outOfFuel

/-- Runs a computation and goes on with its result; what cuts it short is the response. -/
def andThen (s : Session) (x : EvalM α) (go : Session → α → Session × Response) :
    Session × Response :=
  match s.perform x with
  | (.ok a, s) => go s a
  | (.error abort, s) => (s, s.aborted abort)

/-- Goes on with the promise of a name. -/
def withPromise (s : Session) (name : String) (go : PromiseId → Session × Response) :
    Session × Response :=
  match s.promise? name with
  | some p => go p
  | none => (s, .unknownPromise name)

/-- Shows a result and puts it aside. -/
def conclude (save : Option String) (s : Session) (v : Value) : Session × Response :=
  (s.save save v, .outcome (.ok (s.directory.snapshot v)))

/-- Shows the value a promise holds, or that it is pending. -/
def concludeForced (save : Option String) (s : Session) (v : Value) : Session × Response :=
  match v with
  | .promise p =>
    match s.machine.store.outcome? p with
    | some (.ok held) => conclude save s held
    | some (.error e) => (s, .outcome (.error (s.directory.report e)))
    | none => (s.save save v, .blocked)
  | v => conclude save s v

/-- Takes a task from the front or the back of the queue. -/
def takeTask (fromBack : Bool) (queue : List Task) : Option (Task × List Task) :=
  if fromBack then
    match queue.reverse with
    | [] => none
    | task :: rest => some (task, rest.reverse)
  else
    match queue with
    | [] => none
    | task :: rest => some (task, rest)

/-- Runs at most `limit` tasks, those that are queued meanwhile included, and counts them. -/
def drain (E : Engine) (fromBack : Bool) : Nat → Nat → EvalM Nat
  | 0, count => pure count
  | limit + 1, count => do
    match ← EvalM.gets fun m => takeTask fromBack m.rest.queue with
    | none => pure count
    | some (task, rest) => do
      EvalM.modifyRest ({ · with queue := rest })
      E.runTask task
      drain E fromBack limit (count + 1)

/-- Evaluates two expressions whatever becomes of the first. -/
def evalBoth (E : Engine) (a b : Expr) : EvalM (Value × Value) := do
  let x ← EvalM.outcome (E.eval a)
  let y ← EvalM.outcome (E.eval b)
  let x ← EvalM.ofExcept x
  let y ← EvalM.ofExcept y
  return (x, y)

/-- The keys of a pattern, given or evaluated, and the verdict of a match with them. -/
def matchNow (E : Engine) (value : Value) (pattern : Pattern) (keys : Option (List Value)) :
    EvalM (List Value × Matching) := do
  let keys ← match keys with
    | some keys => pure keys
    | none => E.evalItems pattern.keys
  let verdict ← EvalM.gets fun m => pattern.matching m.sight value keys
  let verdict ← EvalM.ofExcept verdict
  return (keys, verdict)

/-- Shows the verdict of a match, and defines what it binds if that is wanted. -/
def concludeMatch (define : Bool) (s : Session) (r : List Value × Matching) : Session × Response :=
  let keys := r.1.map s.directory.snapshot
  match r.2 with
  | .noMatch => (s, .unmatched keys)
  | .pending p => (s, .awaits keys (s.nameOf? p))
  | .matched m =>
    let response := .matched keys (m.bindings.map fun b => (b.1, s.directory.snapshot b.2))
      (m.guards.map Expr.kindName)
    (if define then s.withEnvironment (s.environment.defineAll m.bindings) else s, response)

/-- Makes a new promise known and shows where it stands. -/
def concludePromise (name : String) (hidden : Bool) (s : Session) (p : PromiseId) :
    Session × Response :=
  (s.publish name p hidden, .promise (s.directory.promise p))

/-- Makes a promise from another with a handler over an evaluated function. -/
def deriveWith (E : Engine) (source : PromiseId) (function : Expr)
    (handler : Value → Environment → Handler) : EvalM PromiseId := do
  let f ← E.eval function
  let env ← EvalM.environment
  Promise.derive E.deliver source (handler f env)

/-- Sets or clears the interrupt flag. -/
def setInterrupted (s : Session) (flag : Bool) : Session × Response :=
  ({ s with machine := { s.machine with rest := { s.machine.rest with interrupted := flag } } },
    .interrupted flag)

def shownFunction (s : Session) : Except Error FunctionId → Shown
  | .ok id => s.shown (.ok (.function id))
  | .error e => s.shown (.error e)

def resolution (s : Session) (m : Module) (name : String) : Resolution :=
  { exported := m.isExported name
    lookup := (m.lookupExport? name).isSome
    outside := s.shownFunction (m.resolve name)
    inside := s.shownFunction (m.resolveInternal name) }

/-- Carries out a command with an engine. -/
def runWith (E : Engine) (s : Session) : Command → Session × Response
  | .eval e save => s.andThen (E.eval e) (conclude save)
  | .force e save => s.andThen (E.eval e) (concludeForced save)
  | .call function args save =>
    s.andThen (do E.callFunction (← E.eval function) args) (conclude save)
  | .runTasks count fromBack =>
    s.andThen (drain E fromBack count 0) fun s ran =>
      (s, .ran ran s.machine.rest.queue.length s.savedNow)
  | .inspect e places =>
    s.andThen (E.eval e) fun s v => (s, .inspection (s.directory.inspect v places))
  | .compare a b =>
    s.andThen (evalBoth E a b) fun s r => (s, .comparison (.of r.1 r.2))
  | .tryMatch value pattern keys define =>
    s.andThen (matchNow E value pattern keys) (concludeMatch define)
  | .promise name outcome hidden =>
    match outcome with
    | some outcome =>
      s.andThen (Promise.settled E.deliver outcome) (concludePromise name hidden)
    | none => s.andThen Promise.new (concludePromise name hidden)
  | .fulfil name outcome =>
    s.withPromise name fun p =>
      s.andThen (Promise.fulfil E.deliver p outcome) fun s _ =>
        (s, .fulfilled (s.directory.promise p) s.savedNow)
  | .peek name =>
    s.withPromise name fun p =>
      let v := Value.promise p
      (s, .peeked (s.directory.promise p) (s.machine.store.isPending p)
        (if s.directory.unordered v then none else s.directory.quoted? v))
  | .map name source function hidden =>
    s.withPromise source fun p =>
      s.andThen (deriveWith E p function .apply) (concludePromise name hidden)
  | .mapEither name source function hidden =>
    s.withPromise source fun p =>
      s.andThen (deriveWith E p function .applyEither) (concludePromise name hidden)
  | .all name operands hidden =>
    s.andThen (Promise.all E.deliver operands) (concludePromise name hidden)
  | .observe name label =>
    s.withPromise name fun p =>
      s.andThen (Promise.onComplete E.deliver p (.notify (.report label))) fun s _ =>
        (s, .promise (s.directory.promise p))
  | .same a b => s.withPromise a fun p => s.withPromise b fun q => (s, .same (p == q))
  | .interrupt => s.setInterrupted true
  | .reset => s.setInterrupted false
  | .define name value =>
    let env := s.environment.define name value
    (s.withEnvironment env, .size env.size)
  | .defineAs name e =>
    s.andThen (E.eval e) fun s v =>
      let env := s.environment.define name v
      (s.withEnvironment env, .size env.size)
  | .openFrame =>
    let env := s.environment.openFrame
    (s.withEnvironment env, .depth env.depth)
  | .closeFrame =>
    let env := s.environment.closeFrame
    (s.withEnvironment env, .closed env.depth env.size)
  | .showEnvironment => (s, .environment s.environment)
  | .showForCall => (s, .environment (.forCall s.environment.bindings s.environment))
  | .lookup name =>
    let env := s.environment
    (s, .binding ((env.get? name).map s.directory.snapshot)
      ((env.getUser? name).map s.directory.snapshot) (env.contains name)
      ((env.binding? name).map (·.builtin)))
  | .enterCall frame max =>
    match s.environment.enterCall frame max with
    | .ok env => (s.withEnvironment env, .callDepth env.callDepth)
    | .error e => (s, .outcome (.error (s.directory.report e)))
  | .setModule name =>
    (s.withEnvironment { s.environment with module := name }, .module (name.map ModuleName.text))
  | .register name exports functions =>
    s.andThen (evalModuleBuild name exports functions) fun s v =>
      (s, .registered (s.directory.snapshot v) s.machine.rest.modules.length)
  | .showModule name names =>
    let modules := s.machine.rest.modules
    match Registry.get? modules name with
    | some m =>
      (s, .moduleInfo (some (s.directory.snapshot (.module m))) modules.length
        (names.map (s.resolution m)))
    | none => (s, .moduleInfo none modules.length [])

/-- Carries out a command. -/
def run (s : Session) (c : Command) : Session × Response := s.runWith s.engine c

/-- Carries out a command and takes what it wrote to the log. -/
def runLogged (s : Session) (c : Command) : Session × Response × List LogEntry :=
  let (s, response) := s.run c
  let (log, s) := s.takeLog
  (s, response, log)

end Session

end Deferral
