import Deferral.Function

/-!
# What identities stand for

Values hold functions and promises by identity. A `Directory` says what the identities stand for, so
that values and errors can be put into text. Texts look through settled promises. That comes to an end
unless a promise is inside of itself, by way of others or not; and if it does, it takes no more steps
from one promise into another than there are promises (`Directory.ends`). There is no text of a promise
that is inside of itself: whoever asks for it is never answered.
-/

set_option autoImplicit false

namespace Deferral

/-- What function and promise identities stand for. -/
structure Directory where
  function? : FunctionId → Option Function
  outcome? : PromiseId → Option Outcome
  /-- How many promises there are. -/
  promises : Nat

namespace Directory

def functionLabel (d : Directory) (id : FunctionId) : String :=
  match d.function? id with
  | some f => f.label
  | none => "<fn>"

/-- Whether the text of a promise comes to an end, looking through fewer than `n` promises, each of
them inside of the one before. -/
def ends (d : Directory) : Nat → PromiseId → Bool
  | 0, _ => false
  | n + 1, p =>
    match d.outcome? p with
    | none => true
    | some o => (Outcome.promises o).all (ends d n)

/-- The text of a promise that comes to an end within `n`. -/
def promiseLabel (d : Directory) : Nat → PromiseId → String
  | 0, _ => "<promise>"
  | n + 1, p =>
    let labels : Labels := ⟨d.functionLabel, promiseLabel d n⟩
    match d.outcome? p with
    | none => "<promise pending>"
    | some (.ok v) => "<promise " ++ v.quoted labels ++ ">"
    | some (.error e) => "<promise failed: " ++ e.message labels ++ ">"

/-- Whether there is a text in which these promises are looked into. -/
def legible (d : Directory) (inside : List PromiseId) : Bool := inside.all (d.ends (d.promises + 1))

/-- How identities are written. What is given for a promise without a text is never used. -/
def labels (d : Directory) : Labels :=
  ⟨d.functionLabel, fun p =>
    if d.ends (d.promises + 1) p then d.promiseLabel (d.promises + 1) p else "<promise>"⟩

/-- The quoted text of a value, if there is one. -/
def quoted? (d : Directory) (v : Value) : Option String :=
  if d.legible v.promises then some (v.quoted d.labels) else none

/-- The triple that a handler matches, if there is a text for it. -/
def triple? (d : Directory) (fallback : StackTrace) (e : Error) : Option Value :=
  if d.legible e.promises then some (e.toTriple d.labels fallback) else none

/-- Whether a promise holds a set or dictionary of two or more entries, looking through at most `n`
promises. -/
def holdsUnordered (d : Directory) : Nat → PromiseId → Bool
  | 0, _ => false
  | n + 1, p =>
    match d.outcome? p with
    | some (.ok v) => v.unordered (holdsUnordered d n)
    | _ => false

/-- Whether the text of a value depends on an order that is not fixed. -/
def unordered (d : Directory) (v : Value) : Bool :=
  v.unordered (d.holdsUnordered (d.promises + 1))

end Directory

end Deferral
