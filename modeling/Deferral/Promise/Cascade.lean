import Deferral.Promise.Store

/-!
# Settling promises

Settling a promise runs the continuations that wait for it, and each of them may settle further
promises, register more continuations, or start promises of its own. This module says which
continuation runs when. How a continuation is run is the parameter `deliver`; `deliverStep` is one
level of it, in terms of the next and of `handle`, which says what a handler makes of an outcome.

The rules: fulfilling a promise with another promise adopts that promise's outcome, with itself is a
failure, and a second settlement is ignored. A promise is settled before its continuations run, and
they run in the order of their registration.
-/

set_option autoImplicit false

namespace Deferral

/-- A promise store beside the rest of a state. -/
structure World (η σ : Type) where
  store : Store η
  rest : σ

/-- Computations over a world that can be cut short by an `ε`. -/
abbrev WorldM (ε η σ : Type) := EStateM ε (World η σ)

namespace Promise

variable {ε η σ α : Type}

/-- An indivisible step on the store. -/
def onStore (step : Store η → α × Store η) : WorldM ε η σ α := fun w =>
  match step w.store with
  | (a, store) => .ok a { w with store }

/-- A new pending promise. -/
def new : WorldM ε η σ PromiseId := onStore Store.fresh

variable (deliver : Continuation η → Outcome → WorldM ε η σ Unit)

/-- Runs continuations one after the other on the same outcome. -/
def deliverAll : List (Continuation η) → Outcome → WorldM ε η σ Unit
  | [], _ => pure ()
  | k :: rest, outcome => do
    deliver k outcome
    deliverAll rest outcome

/-- Settles a promise and runs what waited for it. -/
def settle (p : PromiseId) (outcome : Outcome) : WorldM ε η σ Unit := do
  let waiting ← onStore (Store.settle p outcome)
  deliverAll deliver waiting outcome

/-- Runs a continuation on the outcome of a promise, now or when it is settled. -/
def onComplete (p : PromiseId) (k : Continuation η) : WorldM ε η σ Unit := do
  match ← onStore (Store.register p k) with
  | some outcome => deliver k outcome
  | none => pure ()

/-- Gives an outcome to a promise. Another promise as the outcome is adopted. -/
def fulfil (p : PromiseId) (outcome : Outcome) : WorldM ε η σ Unit :=
  match outcome with
  | .ok (.promise q) =>
    if q = p then settle deliver p (.error (.resolution .selfFulfilment))
    else onComplete deliver q (.adopt p)
  | settled => settle deliver p settled

/-- A promise that has been given an outcome. -/
def settled (outcome : Outcome) : WorldM ε η σ PromiseId := do
  let p ← new
  fulfil deliver p outcome
  return p

/-- A promise for what a handler makes of the outcome of another. -/
def derive (p : PromiseId) (handler : η) : WorldM ε η σ PromiseId := do
  let q ← new
  onComplete deliver p (.derive q handler)
  return q

/-- The promises among operands, each with its place. -/
def places : Nat → List Value → List (Nat × PromiseId)
  | _, [] => []
  | i, .promise p :: rest => (i, p) :: places (i + 1) rest
  | i, _ :: rest => places (i + 1) rest

/-- Registers a gather with each of its promises, in order. -/
def watch (id : GatherId) : List (Nat × PromiseId) → WorldM ε η σ Unit
  | [] => pure ()
  | (i, p) :: rest => do
    onComplete deliver p (.gather id i)
    watch id rest

/-- A promise for the tuple of all operands. The first failure that is seen is its failure. -/
def all (operands : List Value) : WorldM ε η σ PromiseId :=
  match places 0 operands with
  | [] => settled deliver (.ok (.tuple operands))
  | awaited => do
    let result ← new
    let id ← onStore (Store.addGather ⟨operands, awaited.length, false, result⟩)
    watch deliver id awaited
    return result

/-- One level of running a continuation. -/
def deliverStep (handle : η → Outcome → WorldM ε η σ Outcome) :
    Continuation η → Outcome → WorldM ε η σ Unit
  | .adopt target, outcome => fulfil deliver target outcome
  | .derive target handler, outcome => do
    let answer ← handle handler outcome
    fulfil deliver target answer
  | .gather id place, outcome => do
    match ← onStore (Store.record id place outcome) with
    | some (target, combined) => fulfil deliver target combined
    | none => pure ()
  | .notify handler, outcome => do
    let _ ← handle handler outcome

end Promise

end Deferral
