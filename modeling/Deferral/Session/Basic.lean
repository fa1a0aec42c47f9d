import Deferral.Eval.Step
import Deferral.Session.Host

/-!
# Sessions

A session is a machine with its settings, together with the promises a host has made by name and the
values it has put aside. `Session.perform` runs a computation on the machine.
-/

set_option autoImplicit false

namespace Deferral

/-- A machine in the hands of a host. -/
structure Session where
  context : Context
  /-- How deeply evaluation may nest. -/
  fuel : Nat
  machine : Machine
  /-- The promises the host has made, first made first. -/
  promises : List (String × PromiseId)
  /-- The values the host has put aside, in order. -/
  saved : List (String × Value)

namespace Session

variable {α : Type}

/-- Nesting that no program within the usual limit of calls reaches. -/
def defaultFuel : Nat := 1000000

/-- Defines a native function under its own name. -/
def defineNative (m : Machine) (name : String) (operation : Native) (arity : Nat) : Machine :=
  let id : FunctionId := ⟨m.rest.functions.size⟩
  { m with
    rest :=
      { m.rest with
        functions := m.rest.functions.push (.ofNative name operation arity)
        env := m.rest.env.defineBuiltin name (.function id) } }

/-- Defines the natives of the prelude. -/
def loadPrelude (m : Machine) : Machine :=
  prelude.foldl (fun m n => defineNative m n.1 n.2.1 n.2.2) m

/-- Defines the operations of the host. -/
def loadHost (m : Machine) : Machine :=
  hostNatives.foldl (fun m n => defineNative m n.1 (.host n.1) n.2) m

/-- A new session, with the prelude and the host's operations if they are wanted. -/
def start (executor : Executor) (maxCallDepth : Nat) (withPrelude withHost : Bool) : Session :=
  let machine := if withPrelude then loadPrelude .empty else .empty
  let machine := if withHost then loadHost machine else machine
  ⟨⟨maxCallDepth, executor, host⟩, defaultFuel, machine, [], []⟩

def engine (s : Session) : Engine := Deferral.engine s.context s.fuel

/-- The session when these modules are held by something else than the registry. -/
def holding (s : Session) (held : Module → Bool) : Session :=
  { s with machine := { s.machine with rest := { s.machine.rest with held } } }

def directory (s : Session) : Directory := s.machine.directory

def environment (s : Session) : Environment := s.machine.rest.env

/-- Runs a computation on the machine. -/
def perform (s : Session) (x : EvalM α) : Except Abort α × Session :=
  match x s.machine with
  | .ok a machine => (.ok a, { s with machine })
  | .error e machine => (.error e, { s with machine })

/-- Changes the environment. -/
def withEnvironment (s : Session) (env : Environment) : Session :=
  { s with machine := { s.machine with rest := { s.machine.rest with env } } }

/-- The latest promise made under a name. -/
def promise? (s : Session) (name : String) : Option PromiseId := s.promises.reverse.lookup name

/-- The first name under which a promise was made. -/
def nameOf? (s : Session) (p : PromiseId) : Option String :=
  (s.promises.find? (·.2 == p)).map (·.1)

/-- The latest value put aside under a name. -/
def saved? (s : Session) (name : String) : Option Value := s.saved.reverse.lookup name

/-- Puts a value aside, if a name is given for it. -/
def save (s : Session) (name : Option String) (v : Value) : Session :=
  match name with
  | some name => { s with saved := s.saved ++ [(name, v)] }
  | none => s

/-- Makes a promise known by name, and defines it for programs unless it is to be hidden from them. -/
def publish (s : Session) (name : String) (p : PromiseId) (hidden : Bool) : Session :=
  let s := { s with promises := s.promises ++ [(name, p)] }
  if hidden then s else s.withEnvironment (s.environment.define name (.promise p))

/-- The values put aside, as they stand now. -/
def savedNow (s : Session) : List (String × Snapshot) :=
  s.saved.map fun e => (e.1, s.directory.snapshot e.2)

/-- Takes the entries out of the log, oldest first. -/
def takeLog (s : Session) : List LogEntry × Session :=
  (s.machine.rest.log.reverse,
    { s with machine := { s.machine with rest := { s.machine.rest with log := [] } } })

end Session

end Deferral
