import Deferral.Error

/-!
# The promise store

A promise starts pending and is settled at most once, to a value or an error. While it is pending it
keeps the continuations that wait for it, in the order in which they were registered. A *gather*
collects the outcomes of several promises into one.

The operations of this module are the indivisible steps on the store: each one looks at a single
promise or gather and changes at most that one. None of them runs a continuation; they only say which
ones are due. What a handler does is left open: `η` is the type of descriptions of handlers.
-/

set_option autoImplicit false

namespace Deferral

/-- The identity of a gather. -/
structure GatherId where
  index : Nat
  deriving DecidableEq, Repr, Inhabited

/-- What is to be done with the outcome of a promise. -/
inductive Continuation (η : Type) where
  /-- Give the outcome to another promise. -/
  | adopt (target : PromiseId)
  /-- Give what the handler makes of the outcome to another promise. -/
  | derive (target : PromiseId) (handler : η)
  /-- Put the outcome at a place of a gather. -/
  | gather (gather : GatherId) (place : Nat)
  /-- Run the handler for its effects alone. -/
  | notify (handler : η)

/-- Where a promise stands. -/
inductive PromiseState (η : Type) where
  /-- The continuations that wait, first registered first. -/
  | pending (waiting : List (Continuation η))
  | fulfilled (value : Value)
  | failed (error : Error)

namespace PromiseState

variable {η : Type}

/-- The state of a promise that is settled with an outcome. -/
def ofOutcome : Outcome → PromiseState η
  | .ok value => .fulfilled value
  | .error error => .failed error

/-- The outcome of a settled promise. -/
def outcome? : PromiseState η → Option Outcome
  | .pending _ => none
  | .fulfilled value => some (.ok value)
  | .failed error => some (.error error)

def isPending : PromiseState η → Bool
  | .pending _ => true
  | _ => false

end PromiseState

/-- Several outcomes on their way to becoming one. -/
structure Gather where
  /-- The operands; a promise among them is replaced by its value when that is there. -/
  values : List Value
  /-- How many operands are still missing. -/
  remaining : Nat
  /-- Whether the combined outcome has been given. -/
  done : Bool
  /-- The promise that gets the combined outcome. -/
  result : PromiseId

/-- Puts an outcome at a place. The last missing value completes the gather with the tuple of all, and
the first error completes it with that error; after that nothing counts. -/
def Gather.record (g : Gather) (place : Nat) (outcome : Outcome) : Gather × Option Outcome :=
  if g.done then (g, none)
  else
    match outcome with
    | .ok value =>
      let values := g.values.set place value
      let remaining := g.remaining - 1
      if remaining = 0 then ({ g with values, remaining, done := true }, some (.ok (.tuple values)))
      else ({ g with values, remaining }, none)
    | .error error => ({ g with done := true }, some (.error error))

/-- All promises and gathers. -/
structure Store (η : Type) where
  promises : Array (PromiseState η)
  gathers : Array Gather

namespace Store

variable {η : Type}

def empty : Store η := ⟨#[], #[]⟩

/-- Where a promise stands. -/
def state (s : Store η) (p : PromiseId) : PromiseState η :=
  s.promises[p.index]?.getD (.pending [])

/-- The outcome of a promise, if it is settled. -/
def outcome? (s : Store η) (p : PromiseId) : Option Outcome := (s.state p).outcome?

def isPending (s : Store η) (p : PromiseId) : Bool := (s.state p).isPending

def setState (s : Store η) (p : PromiseId) (state : PromiseState η) : Store η :=
  { s with promises := s.promises.setIfInBounds p.index state }

/-- A new pending promise. -/
def fresh (s : Store η) : PromiseId × Store η :=
  (⟨s.promises.size⟩, { s with promises := s.promises.push (.pending []) })

/-- Makes a continuation wait for a pending promise; the outcome of a settled one is given back
instead, for the continuation to run on. -/
def register (p : PromiseId) (k : Continuation η) (s : Store η) : Option Outcome × Store η :=
  match s.state p with
  | .pending waiting => (none, s.setState p (.pending (waiting ++ [k])))
  | settled => (settled.outcome?, s)

/-- Settles a pending promise and gives back the continuations that waited for it. A settled promise
stays as it is, and nothing is due. -/
def settle (p : PromiseId) (outcome : Outcome) (s : Store η) : List (Continuation η) × Store η :=
  match s.state p with
  | .pending waiting => (waiting, s.setState p (.ofOutcome outcome))
  | _ => ([], s)

/-- Starts a gather. -/
def addGather (g : Gather) (s : Store η) : GatherId × Store η :=
  (⟨s.gathers.size⟩, { s with gathers := s.gathers.push g })

/-- Records an outcome in a gather; a completed gather names its result and the combined outcome. -/
def record (id : GatherId) (place : Nat) (outcome : Outcome) (s : Store η) :
    Option (PromiseId × Outcome) × Store η :=
  match s.gathers[id.index]? with
  | none => (none, s)
  | some g =>
    let (g', finished) := g.record place outcome
    (finished.map fun o => (g'.result, o),
      { s with gathers := s.gathers.setIfInBounds id.index g' })

end Store

end Deferral
