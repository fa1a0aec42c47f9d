import Deferral.Proofs.Promise.Trace

/-!
# Laws of promise stores

A `TraceSpec` says how the store before a run, the trace of the run and the store after it belong
together. It is a `Law` if the single steps and the call that settles a promise satisfy it;
`Law.record` then gives it for every routine with any handlers, however deeply the continuations of one
promise are run inside those of another.

A specification may rest on an invariant of the store (`Inv`) and on what is known of the outcomes that
continuations get (`Fine`). Whether the run came to its end or was cut short is the first argument of
`Rel`.
-/

set_option autoImplicit false

namespace Deferral

/-- Whether a computation came to its end. -/
def ended {ε η σ α : Type} : EStateM.Result ε (World η σ) α → Bool
  | .ok .. => true
  | .error .. => false

/-- What holds between two stores and the trace that leads from one to the other. -/
structure TraceSpec (η : Type) where
  Inv : Store η → Prop
  Fine : Outcome → Prop
  Rel : Bool → Store η → List (Event η) → Store η → Prop
  refl : ∀ b s, Rel b s [] s
  trans : ∀ {b s t s' u s''}, Rel true s t s' → Rel b s' u s'' → Rel b s (t ++ u) s''

namespace TraceSpec

variable {η σ α β : Type} {L : TraceSpec η}

/-- A recorded computation satisfies the specification from every store with the invariant, and keeps
the invariant. -/
def Obeys (L : TraceSpec η) (x : Recorded η σ α) : Prop :=
  ∀ w, L.Inv w.store → L.Inv (finalWorld (x w).1).store ∧
    L.Rel (ended (x w).1) w.store (x w).2 (finalWorld (x w).1).store

theorem obeys_pure (a : α) : L.Obeys (pure a : Recorded η σ α) :=
  fun w hw => ⟨hw, L.refl true w.store⟩

theorem obeys_halt (h : Halt) : L.Obeys (Recorded.halt h : Recorded η σ α) :=
  fun w hw => ⟨hw, L.refl false w.store⟩

theorem obeys_note {e : Event η} (h : ∀ s, L.Inv s → L.Rel true s [e] s) :
    L.Obeys (Recorded.note e : Recorded η σ Unit) :=
  fun w hw => ⟨hw, h w.store hw⟩

theorem obeys_bind {x : Recorded η σ α} {f : α → Recorded η σ β} (hx : L.Obeys x)
    (hf : ∀ a, L.Obeys (f a)) : L.Obeys (x >>= f) := by
  intro w hw
  obtain ⟨hi, hr⟩ := hx w hw
  simp only [bind]
  cases h : x w with
  | mk r t =>
    rw [h] at hi hr
    cases r with
    | error e w' => exact ⟨hi, hr⟩
    | ok a w' =>
      obtain ⟨hi', hr'⟩ := hf a w' hi
      exact ⟨hi', L.trans hr hr'⟩

end TraceSpec

open TraceSpec

/-- A specification that every single step and every settling call satisfies. -/
structure Law {η : Type} (L : TraceSpec η) : Prop where
  fine_of_state : ∀ {s p o}, L.Inv s → s.state p = .ofOutcome o → L.Fine o
  made : ∀ {s}, L.Inv s → L.Inv s.fresh.2 ∧ L.Rel true s [.made s.fresh.1] s.fresh.2
  gathering : ∀ {s} g, L.Inv s → L.Inv (s.addGather g).2 ∧
    L.Rel true s [.gathering g] (s.addGather g).2
  recorded : ∀ {s} id place {o}, L.Inv s → L.Fine o → L.Inv (s.record id place o).2 ∧
    L.Rel true s [.recorded id place o] (s.record id place o).2
  handled : ∀ {s} h {o}, L.Inv s → L.Fine o → L.Rel true s [.handled h o] s
  registered : ∀ {s p ks} k, L.Inv s → s.state p = .pending ks →
    L.Inv (s.register p k).2 ∧ L.Rel true s [.stage p (.registered k)] (s.register p k).2
  answered : ∀ {s p o} k, L.Inv s → s.state p = .ofOutcome o →
    L.Rel true s [.stage p (.answered k o)] s
  settle : ∀ {σ : Type} {deliver : Continuation η → Outcome → Recorded η σ Unit},
    (∀ k o, L.Fine o → L.Obeys (deliver k o)) → ∀ p o, Concrete o →
      L.Obeys (Recorded.settle deliver p o)

namespace Law

variable {η σ α β : Type} {L : TraceSpec η} (hL : Law L)
include hL

theorem new : L.Obeys (Recorded.new : Recorded η σ PromiseId) := fun _ hw => hL.made hw

theorem handledNote (h : η) {o : Outcome} (ho : L.Fine o) :
    L.Obeys (Recorded.note (.handled h o) : Recorded η σ Unit) :=
  obeys_note fun _ hw => hL.handled h hw ho

section Operations

variable {deliver : Continuation η → Outcome → Recorded η σ Unit}
  (hd : ∀ k o, L.Fine o → L.Obeys (deliver k o))
include hd

theorem onComplete (p : PromiseId) (k : Continuation η) :
    L.Obeys (Recorded.onComplete deliver p k) := by
  intro w hw
  rcases Store.register_cases p k w.store with ⟨ks, hp, hs⟩ | ⟨o, hp, hs⟩
  · have h := hL.registered k hw hp
    simp only [Recorded.onComplete, Recorded.onStore, Bind.bind, hs] at h ⊢
    exact h
  · have ha := hL.answered k hw hp
    obtain ⟨hi, hr⟩ := hd k o (hL.fine_of_state hw hp) w hw
    simp only [Recorded.onComplete, Recorded.onStore, Bind.bind, hs]
    exact ⟨hi, L.trans ha hr⟩

theorem fulfil (p : PromiseId) (o : Outcome) : L.Obeys (Recorded.fulfil deliver p o) := by
  rcases concrete_or_promise o with ho | ⟨q, rfl⟩
  · rw [Recorded.fulfil_concrete _ ho]
    exact hL.settle hd p o ho
  · by_cases hq : q = p
    · subst hq
      rw [Recorded.fulfil_self]
      exact hL.settle hd q _ (concrete_error _)
    · rw [Recorded.fulfil_other _ hq]
      exact onComplete hL hd q _

theorem settled (o : Outcome) : L.Obeys (Recorded.settled deliver o) :=
  obeys_bind hL.new fun p => obeys_bind (fulfil hL hd p o) fun _ => obeys_pure p

theorem derive (p : PromiseId) (h : η) : L.Obeys (Recorded.derive deliver p h) :=
  obeys_bind hL.new fun q => obeys_bind (onComplete hL hd p _) fun _ => obeys_pure q

theorem watch (id : GatherId) : ∀ awaited : List (Nat × PromiseId),
    L.Obeys (Recorded.watch deliver id awaited)
  | [] => obeys_pure ()
  | (_, p) :: rest => obeys_bind (onComplete hL hd p _) fun _ => watch id rest

theorem all (operands : List Value) : L.Obeys (Recorded.all deliver operands) := by
  unfold Recorded.all
  cases Promise.places 0 operands with
  | nil => exact settled hL hd _
  | cons a rest =>
    exact obeys_bind hL.new fun result => obeys_bind (fun _ hw => hL.gathering _ hw) fun id =>
      obeys_bind (watch hL hd id _) fun _ => obeys_pure result

theorem deliverStep {handle : η → Outcome → Recorded η σ Outcome}
    (hh : ∀ h o, L.Obeys (handle h o)) (k : Continuation η) (o : Outcome) (ho : L.Fine o) :
    L.Obeys (Recorded.deliverStep deliver handle k o) := by
  cases k with
  | adopt target => exact fulfil hL hd target o
  | derive target h =>
    exact obeys_bind (hL.handledNote h ho) fun _ => obeys_bind (hh h o) fun answer =>
      fulfil hL hd target answer
  | gather id place =>
    refine obeys_bind (fun _ hw => hL.recorded id place hw ho) fun finished => ?_
    cases finished with
    | none => exact obeys_pure ()
    | some c => exact fulfil hL hd c.1 c.2
  | notify h =>
    exact obeys_bind (hL.handledNote h ho) fun _ => obeys_bind (hh h o) fun _ => obeys_pure ()

theorem recordWith (r : Routine η σ α) : L.Obeys (r.recordWith deliver) := by
  induction r with
  | done a => exact obeys_pure a
  | panic => exact obeys_halt .panic
  | look next ih => exact fun w => ih w w
  | change f next ih => exact fun w => ih { w with rest := f w.rest }
  | new next ih => exact obeys_bind hL.new ih
  | settled o next ih => exact obeys_bind (settled hL hd o) ih
  | fulfil p o next ih => exact obeys_bind (fulfil hL hd p o) fun _ => ih
  | onComplete p k next ih => exact obeys_bind (onComplete hL hd p k) fun _ => ih
  | derive p h next ih => exact obeys_bind (derive hL hd p h) ih
  | all operands next ih => exact obeys_bind (all hL hd operands) ih

end Operations

theorem recordDeliver (handle : η → Outcome → Routine η σ Outcome) :
    ∀ (n : Nat) (k : Continuation η) (o : Outcome), L.Fine o →
      L.Obeys (Routine.recordDeliver handle n k o)
  | 0, _, _, _ => obeys_halt .outOfFuel
  | n + 1, k, o, ho =>
    deliverStep hL (recordDeliver handle n)
      (fun h o => recordWith hL (recordDeliver handle n) (handle h o)) k o ho

/-- A law holds of every routine with any handlers. -/
theorem record (handle : η → Outcome → Routine η σ Outcome) (n : Nat) (r : Routine η σ α) :
    L.Obeys (r.record handle n) :=
  recordWith hL (recordDeliver hL handle n) r

end Law

end Deferral
