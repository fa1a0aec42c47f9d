import Deferral.Promise.Cascade

/-!
# Routines over a promise store

What a host, a continuation or a handler does with promises is a `Routine`: any sequence of the
operations of `Deferral.Promise`, where each step may depend on everything seen so far, the store
included. A handler is given by its routine, so it may create, settle and watch promises while the
continuations of another promise are being run.

`Routine.deliver handle n` runs continuations whose handlers are the routines `handle`. Cascades need
not end, so `n` bounds how deeply they are nested; a run that needs more is cut short by
`Halt.outOfFuel`.
-/

set_option autoImplicit false

namespace Deferral

/-- Why a routine was cut short. -/
inductive Halt where
  | panic
  | outOfFuel
  deriving DecidableEq, Repr

/-- Operations on promises in sequence, over a state `σ` of its own, with a result. -/
inductive Routine (η σ α : Type) where
  | done (a : α)
  | panic
  /-- Looks at everything there is, the states of all promises included. -/
  | look (next : World η σ → Routine η σ α)
  | change (f : σ → σ) (next : Routine η σ α)
  | new (next : PromiseId → Routine η σ α)
  | settled (outcome : Outcome) (next : PromiseId → Routine η σ α)
  | fulfil (p : PromiseId) (outcome : Outcome) (next : Routine η σ α)
  | onComplete (p : PromiseId) (k : Continuation η) (next : Routine η σ α)
  | derive (p : PromiseId) (handler : η) (next : PromiseId → Routine η σ α)
  | all (operands : List Value) (next : PromiseId → Routine η σ α)

namespace Routine

variable {η σ α : Type}

/-- Performs a routine; `deliver` says how continuations are run. -/
def run (deliver : Continuation η → Outcome → WorldM Halt η σ Unit) :
    Routine η σ α → WorldM Halt η σ α
  | .done a => pure a
  | .panic => throw .panic
  | .look next => fun w => run deliver (next w) w
  | .change f next => fun w => run deliver next { w with rest := f w.rest }
  | .new next => do run deliver (next (← Promise.new))
  | .settled outcome next => do run deliver (next (← Promise.settled deliver outcome))
  | .fulfil p outcome next => do
    Promise.fulfil deliver p outcome
    run deliver next
  | .onComplete p k next => do
    Promise.onComplete deliver p k
    run deliver next
  | .derive p handler next => do run deliver (next (← Promise.derive deliver p handler))
  | .all operands next => do run deliver (next (← Promise.all deliver operands))

/-- Runs continuations with handlers that are routines, nested at most `n` deep. -/
def deliver (handle : η → Outcome → Routine η σ Outcome) :
    Nat → Continuation η → Outcome → WorldM Halt η σ Unit
  | 0, _, _ => throw .outOfFuel
  | n + 1, k, outcome =>
    Promise.deliverStep (deliver handle n) (fun h o => (handle h o).run (deliver handle n)) k outcome

/-- Performs a routine from the outside. -/
def perform (handle : η → Outcome → Routine η σ Outcome) (n : Nat) (r : Routine η σ α) :
    WorldM Halt η σ α :=
  r.run (deliver handle n)

end Routine

end Deferral
