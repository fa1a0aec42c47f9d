import Deferral.Environment
import Deferral.Syntax

/-!
# Functions

A function is code with the bindings it was created among, or a native operation of the host. A
function declared in a module has a link to its module, which gives it its qualified name and, when it
runs, its siblings. The link does not keep the module: once the module is gone, the function goes on
without one (`Function.standing`).
-/

set_option autoImplicit false

namespace Deferral

/-- The native operations: those of the prelude, and those a host adds by name. -/
inductive Native where
  | typeOf
  | len
  | identity
  | display
  | host (name : String)
  deriving DecidableEq, Repr

/-- What runs when a function is called. -/
inductive FunctionBody where
  | code (params : List String) (body : Expr)
  | native (operation : Native) (arity : Nat)

/-- A function. -/
structure Function where
  name : String
  body : FunctionBody
  /-- The bindings in scope where the function was created, newest first. -/
  captures : List Binding
  /-- The declaring module, which may be gone. -/
  module : Option Module

/-- The name of a function without one. -/
def anonymousName : String := "$lambda"

namespace Function

def params (f : Function) : List String :=
  match f.body with
  | .code params _ => params
  | .native .. => []

/-- The number of arguments a function takes. -/
def arity (f : Function) : Nat :=
  match f.body with
  | .code params _ => params.length
  | .native _ arity => arity

def isNative (f : Function) : Bool :=
  match f.body with
  | .code .. => false
  | .native .. => true

/-- A function as it stands when these modules are there: its link to any other is lost. -/
def standing (present : Module → Bool) (f : Function) : Function :=
  { f with module := f.module.filter present }

theorem standing_of_unlinked {f : Function} (h : f.module = none) (present : Module → Bool) :
    f.standing present = f := by
  rw [standing, h]
  cases f
  cases h
  rfl

/-- The name with that of the declaring module in front. -/
def qualifiedName (f : Function) : String :=
  match f.module with
  | some m => m.name.text ++ "." ++ f.name
  | none => f.name

/-- How a function is written in text. -/
def label (f : Function) : String :=
  (if f.isNative then "<native(" else "<fn(") ++ f.qualifiedName ++ "/" ++ Number.natText f.arity ++
    ")>"

/-- A native function under its own name. -/
def ofNative (name : String) (operation : Native) (arity : Nat) : Function :=
  ⟨name, .native operation arity, [], none⟩

end Function

end Deferral
