import Deferral.Proofs.Promise.Steps

/-!
# What operations on promises are composed of

Every operation on promises is a composition of steps on the store and of deliveries. So a property of
computations that the steps have, and that composition keeps (`Composed`), is a property of each
operation as soon as it is one of deliveries. Nothing need be said of settling a promise with another
promise, since that is never done: another promise is adopted.
-/

set_option autoImplicit false

namespace Deferral

/-- The steps on the store have the property, and composition keeps it. -/
structure Composed {ε η σ : Type} (P : ∀ {α : Type}, WorldM ε η σ α → Prop) : Prop where
  pure : ∀ {α : Type} (a : α), P (Pure.pure a : WorldM ε η σ α)
  bind : ∀ {α β : Type} {x : WorldM ε η σ α} {f : α → WorldM ε η σ β},
    P x → (∀ a, P (f a)) → P (x >>= f)
  new : P (Promise.new : WorldM ε η σ PromiseId)
  settles : ∀ (p : PromiseId) {o : Outcome}, Concrete o → P (Promise.onStore (Store.settle p o))
  registers : ∀ (p : PromiseId) (k : Continuation η), P (Promise.onStore (Store.register p k))
  gathers : ∀ g : Gather, P (Promise.onStore (Store.addGather g))
  records : ∀ (id : GatherId) (place : Nat) (o : Outcome),
    P (Promise.onStore (Store.record id place o))

namespace Composed

variable {ε η σ : Type} {P : ∀ {α : Type}, WorldM ε η σ α → Prop} (h : Composed P)
  {deliver : Continuation η → Outcome → WorldM ε η σ Unit} (hd : ∀ k o, P (deliver k o))
include h hd

theorem deliverAll (o : Outcome) : ∀ ks, P (Promise.deliverAll deliver ks o)
  | [] => h.pure ()
  | k :: ks => h.bind (hd k o) fun _ => deliverAll o ks

theorem settle (p : PromiseId) {o : Outcome} (ho : Concrete o) : P (Promise.settle deliver p o) :=
  h.bind (h.settles p ho) fun ks => h.deliverAll hd o ks

theorem onComplete (p : PromiseId) (k : Continuation η) : P (Promise.onComplete deliver p k) := by
  refine h.bind (h.registers p k) fun answer => ?_
  cases answer with
  | none => exact h.pure ()
  | some o => exact hd k o

theorem fulfil (p : PromiseId) (o : Outcome) : P (Promise.fulfil deliver p o) := by
  rcases concrete_or_promise o with ho | ⟨q, rfl⟩
  · rw [Promise.fulfil_concrete deliver ho]
    exact h.settle hd p ho
  · by_cases hq : q = p
    · subst hq
      rw [Promise.fulfil_self]
      exact h.settle hd q (concrete_error _)
    · rw [Promise.fulfil_other deliver hq]
      exact h.onComplete hd q _

theorem settled (o : Outcome) : P (Promise.settled deliver o) :=
  h.bind h.new fun p => h.bind (h.fulfil hd p o) fun _ => h.pure p

theorem derive (p : PromiseId) (handler : η) : P (Promise.derive deliver p handler) :=
  h.bind h.new fun q => h.bind (h.onComplete hd p _) fun _ => h.pure q

theorem watch (id : GatherId) : ∀ awaited, P (Promise.watch deliver id awaited)
  | [] => h.pure ()
  | (_, p) :: rest => h.bind (h.onComplete hd p _) fun _ => watch id rest

theorem all (operands : List Value) : P (Promise.all deliver operands) := by
  unfold Promise.all
  cases Promise.places 0 operands with
  | nil => exact h.settled hd _
  | cons a rest =>
    exact h.bind h.new fun result => h.bind (h.gathers _) fun id => h.bind (h.watch hd id _) fun _ =>
      h.pure result

theorem deliverStep {handle : η → Outcome → WorldM ε η σ Outcome}
    (hh : ∀ handler o, P (handle handler o)) (k : Continuation η) (o : Outcome) :
    P (Promise.deliverStep deliver handle k o) := by
  cases k with
  | adopt target => exact h.fulfil hd target o
  | derive target handler => exact h.bind (hh handler o) fun answer => h.fulfil hd target answer
  | gather id place =>
    refine h.bind (h.records id place o) fun finished => ?_
    cases finished with
    | none => exact h.pure ()
    | some c => exact h.fulfil hd c.1 c.2
  | notify handler => exact h.bind (hh handler o) fun _ => h.pure ()

end Composed

end Deferral
