import Deferral.Error

/-!
# Environments

The names a piece of code sees and the calls that led to it. All bindings are in one list, newest
first; a frame is the number of bindings that were there when it was opened, so closing a frame drops
what came after, and looking a name up finds its newest binding. The global frame is always open.
-/

set_option autoImplicit false

namespace Deferral

/-- A name and what it stands for. -/
structure Binding where
  name : String
  value : Value
  /-- Whether the name was provided by the host and not by the program. -/
  builtin : Bool

/-- The bindings in scope, the frames that are open and the calls that are active. -/
structure Environment where
  /-- Newest first. -/
  bindings : List Binding
  /-- How many bindings there were when each frame was opened, innermost first; the global frame is
  not listed. -/
  frames : List Nat
  /-- Active calls, innermost first. -/
  calls : StackTrace
  /-- The module whose code is running. -/
  module : Option ModuleName
  deriving Inhabited

namespace Environment

def empty : Environment := ⟨[], [], [], none⟩

/-- The environment of a function body: what the function captured, under the caller's calls. -/
def forCall (captures : List Binding) (caller : Environment) : Environment :=
  ⟨captures, [], caller.calls, none⟩

/-! ## Frames -/

def openFrame (env : Environment) : Environment :=
  { env with frames := env.bindings.length :: env.frames }

/-- Drops the innermost frame with its bindings. The global frame stays. -/
def closeFrame (env : Environment) : Environment :=
  match env.frames with
  | [] => env
  | start :: outer =>
    { env with bindings := env.bindings.drop (env.bindings.length - start), frames := outer }

/-- The number of open frames, with the global one. -/
def depth (env : Environment) : Nat := env.frames.length + 1

/-! ## Calls -/

def callDepth (env : Environment) : Nat := env.calls.length

/-- Records a call, unless that would make more than `max` of them. -/
def enterCall (frame : StackFrame) (max : Nat) (env : Environment) : Except Error Environment :=
  if max ≤ env.callDepth then .error (.stackOverflow env.callDepth max)
  else .ok { env with calls := frame :: env.calls }

/-! ## Bindings -/

/-- Binds a name in the innermost frame. -/
def define (env : Environment) (name : String) (value : Value) : Environment :=
  { env with bindings := ⟨name, value, false⟩ :: env.bindings }

/-- Binds a name on behalf of the host. -/
def defineBuiltin (env : Environment) (name : String) (value : Value) : Environment :=
  { env with bindings := ⟨name, value, true⟩ :: env.bindings }

/-- Binds several names in order. -/
def defineAll (env : Environment) (bindings : List (String × Value)) : Environment :=
  bindings.foldl (fun e b => e.define b.1 b.2) env

/-- The newest binding of a name. -/
def binding? (env : Environment) (name : String) : Option Binding :=
  env.bindings.find? (·.name == name)

def get? (env : Environment) (name : String) : Option Value :=
  (env.binding? name).map (·.value)

/-- The value the program itself has bound to a name. A builtin that is the newest binding of the name
hides the others. -/
def getUser? (env : Environment) (name : String) : Option Value :=
  match env.binding? name with
  | some b => if b.builtin then none else some b.value
  | none => none

def contains (env : Environment) (name : String) : Bool := (env.binding? name).isSome

def size (env : Environment) : Nat := env.bindings.length

/-- All bindings, oldest first. -/
def toList (env : Environment) : List Binding := env.bindings.reverse

/-- The names bound in the innermost frame, oldest first. -/
def currentNames (env : Environment) : List String :=
  (env.toList.drop (env.frames.head?.getD 0)).map (·.name)

end Environment

end Deferral
