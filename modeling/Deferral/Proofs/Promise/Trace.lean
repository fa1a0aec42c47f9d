import Deferral.Proofs.Promise.Routine
import Deferral.Proofs.Promise.Steps

/-!
# Traces of routines

`Recorded` computations give, beside their result, the trace of what happened on the way: every step
on the store and every run of a continuation, in order. The recorded operations below do what those of
`Deferral.Promise` do and write it down, and `Routine.record_fst` says so: the result of a recorded
routine is the result of the routine.

The trace determines the store. `Event.replay` is the effect of one event, and the stores in the middle
of a run are those that the prefixes of its trace lead to.
-/

set_option autoImplicit false

namespace Deferral

/-- What happens to a promise. -/
inductive Stage (η : Type) where
  /-- The continuation waits for the promise, which is pending. -/
  | registered (k : Continuation η)
  | settled (outcome : Outcome)
  /-- A continuation that has waited is run, by the call that settled the promise. -/
  | invoked (k : Continuation η) (outcome : Outcome)
  /-- The call that settled the promise has run all continuations that waited. -/
  | drained
  /-- The continuation is given to the promise, which is settled already, and is run at once. -/
  | answered (k : Continuation η) (outcome : Outcome)

/-- What happens during a run. -/
inductive Event (η : Type) where
  | made (p : PromiseId)
  | stage (p : PromiseId) (what : Stage η)
  | gathering (g : Gather)
  | recorded (id : GatherId) (place : Nat) (outcome : Outcome)
  /-- A handler is called on an outcome. -/
  | handled (h : η) (outcome : Outcome)

namespace Event

variable {η : Type}

/-- What an event does to the store. -/
def replay : Event η → Store η → Store η
  | .made _, s => s.fresh.2
  | .stage p (.registered k), s => (s.register p k).2
  | .stage p (.settled o), s => (s.settle p o).2
  | .stage .., s => s
  | .gathering g, s => (s.addGather g).2
  | .recorded id place o, s => (s.record id place o).2
  | .handled .., s => s

/-- What a trace does to the store. -/
def replayAll (trace : List (Event η)) (s : Store η) : Store η :=
  trace.foldl (fun s e => e.replay s) s

theorem replayAll_append (t u : List (Event η)) (s : Store η) :
    replayAll (t ++ u) s = replayAll u (replayAll t s) := List.foldl_append ..

/-- What a trace says about one promise. -/
def history (p : PromiseId) (trace : List (Event η)) : List (Stage η) :=
  trace.filterMap fun
    | .stage q what => if q = p then some what else none
    | _ => none

theorem history_append (p : PromiseId) (t u : List (Event η)) :
    history p (t ++ u) = history p t ++ history p u := List.filterMap_append ..

theorem history_stage_self (p : PromiseId) (what : Stage η) :
    history p [.stage p what] = [what] := by simp [history]

theorem history_stage_ne {p q : PromiseId} (h : q ≠ p) (what : Stage η) :
    history p [.stage q what] = [] := by simp [history, h]

end Event

/-- The world in which a computation ends. -/
def finalWorld {ε η σ α : Type} : EStateM.Result ε (World η σ) α → World η σ
  | .ok _ w => w
  | .error _ w => w

/-- Computations over a world that write down what happens. -/
def Recorded (η σ α : Type) :=
  World η σ → EStateM.Result Halt (World η σ) α × List (Event η)

namespace Recorded

variable {η σ α β : Type}

instance : Monad (Recorded η σ) where
  pure a := fun w => (.ok a w, [])
  bind x f := fun w =>
    match x w with
    | (.ok a w, t) => ((f a w).1, t ++ (f a w).2)
    | (.error e w, t) => (.error e w, t)

/-- Cuts a run short. -/
def halt (h : Halt) : Recorded η σ α := fun w => (.error h w, [])

/-- Writes an event down. -/
def note (e : Event η) : Recorded η σ Unit := fun w => (.ok () w, [e])

/-- A step on the store, with the events it stands for. -/
def onStore (step : Store η → α × Store η) (events : α → List (Event η)) : Recorded η σ α :=
  fun w => (.ok (step w.store).1 { w with store := (step w.store).2 }, events (step w.store).1)

def new : Recorded η σ PromiseId := onStore Store.fresh fun p => [.made p]

/-- Settles a promise, if it is pending, and gives back the continuations that are due. -/
def beginSettle (p : PromiseId) (o : Outcome) : Recorded η σ (Option (List (Continuation η))) :=
  fun w =>
    match w.store.state p with
    | .pending ks => (.ok (some ks) { w with store := (w.store.settle p o).2 }, [.stage p (.settled o)])
    | _ => (.ok none w, [])

section Operations

variable (deliver : Continuation η → Outcome → Recorded η σ Unit)

def deliverAll (p : PromiseId) : List (Continuation η) → Outcome → Recorded η σ Unit
  | [], _ => note (.stage p .drained)
  | k :: rest, o => do
    note (.stage p (.invoked k o))
    deliver k o
    deliverAll p rest o

def settle (p : PromiseId) (o : Outcome) : Recorded η σ Unit := do
  match ← beginSettle p o with
  | some ks => deliverAll deliver p ks o
  | none => pure ()

def onComplete (p : PromiseId) (k : Continuation η) : Recorded η σ Unit := do
  match ← onStore (Store.register p k) fun
    | some o => [.stage p (.answered k o)]
    | none => [.stage p (.registered k)] with
  | some o => deliver k o
  | none => pure ()

def fulfil (p : PromiseId) (o : Outcome) : Recorded η σ Unit :=
  match o with
  | .ok (.promise q) =>
    if q = p then settle deliver p (.error (.resolution .selfFulfilment))
    else onComplete deliver q (.adopt p)
  | o => settle deliver p o

def settled (o : Outcome) : Recorded η σ PromiseId := do
  let p ← new
  fulfil deliver p o
  return p

def derive (p : PromiseId) (h : η) : Recorded η σ PromiseId := do
  let q ← new
  onComplete deliver p (.derive q h)
  return q

def watch (id : GatherId) : List (Nat × PromiseId) → Recorded η σ Unit
  | [] => pure ()
  | (i, p) :: rest => do
    onComplete deliver p (.gather id i)
    watch id rest

def all (operands : List Value) : Recorded η σ PromiseId :=
  match Promise.places 0 operands with
  | [] => settled deliver (.ok (.tuple operands))
  | awaited => do
    let result ← new
    let g : Gather := ⟨operands, awaited.length, false, result⟩
    let id ← onStore (Store.addGather g) fun _ => [.gathering g]
    watch deliver id awaited
    return result

def deliverStep (handle : η → Outcome → Recorded η σ Outcome) :
    Continuation η → Outcome → Recorded η σ Unit
  | .adopt target, o => fulfil deliver target o
  | .derive target h, o => do
    note (.handled h o)
    let answer ← handle h o
    fulfil deliver target answer
  | .gather id place, o => do
    match ← onStore (Store.record id place o) fun _ => [.recorded id place o] with
    | some (target, combined) => fulfil deliver target combined
    | none => pure ()
  | .notify h, o => do
    note (.handled h o)
    let _ ← handle h o

theorem fulfil_concrete {o : Outcome} (h : Concrete o) (p : PromiseId) :
    fulfil deliver p o = settle deliver p o := by
  unfold fulfil
  split
  · exact absurd rfl (h _)
  · rfl

theorem fulfil_self (p : PromiseId) :
    fulfil deliver p (.ok (.promise p)) =
      settle deliver p (.error (.resolution .selfFulfilment)) := by
  simp [fulfil]

theorem fulfil_other {p q : PromiseId} (h : q ≠ p) :
    fulfil deliver p (.ok (.promise q)) = onComplete deliver q (.adopt p) := by
  simp [fulfil, h]

end Operations

end Recorded

namespace Routine

variable {η σ α : Type}

/-- Performs a routine and writes down what happens. -/
def recordWith (deliver : Continuation η → Outcome → Recorded η σ Unit) :
    Routine η σ α → Recorded η σ α
  | .done a => pure a
  | .panic => Recorded.halt .panic
  | .look next => fun w => recordWith deliver (next w) w
  | .change f next => fun w => recordWith deliver next { w with rest := f w.rest }
  | .new next => do recordWith deliver (next (← Recorded.new))
  | .settled o next => do recordWith deliver (next (← Recorded.settled deliver o))
  | .fulfil p o next => do
    Recorded.fulfil deliver p o
    recordWith deliver next
  | .onComplete p k next => do
    Recorded.onComplete deliver p k
    recordWith deliver next
  | .derive p h next => do recordWith deliver (next (← Recorded.derive deliver p h))
  | .all operands next => do recordWith deliver (next (← Recorded.all deliver operands))

def recordDeliver (handle : η → Outcome → Routine η σ Outcome) :
    Nat → Continuation η → Outcome → Recorded η σ Unit
  | 0, _, _ => Recorded.halt .outOfFuel
  | n + 1, k, o =>
    Recorded.deliverStep (recordDeliver handle n)
      (fun h o => (handle h o).recordWith (recordDeliver handle n)) k o

/-- Performs a routine from the outside and writes down what happens. -/
def record (handle : η → Outcome → Routine η σ Outcome) (n : Nat) (r : Routine η σ α) :
    Recorded η σ α :=
  r.recordWith (recordDeliver handle n)

end Routine

/-! ## The recorded run is the run -/

/-- A recorded computation has the result of the computation it writes down. -/
def Records {η σ α : Type} (x : Recorded η σ α) (y : WorldM Halt η σ α) : Prop := ∀ w, (x w).1 = y w

namespace Records

variable {η σ α β : Type}

theorem pure (a : α) : Records (σ := σ) (η := η) (Pure.pure a) (Pure.pure a) := fun _ => rfl

theorem bind {x : Recorded η σ α} {y : WorldM Halt η σ α} {f : α → Recorded η σ β}
    {g : α → WorldM Halt η σ β} (hx : Records x y) (hf : ∀ a, Records (f a) (g a)) :
    Records (x >>= f) (y >>= g) := by
  intro w
  have h := hx w
  simp only [Bind.bind, EStateM.bind]
  rw [← h]
  cases hw : x w with
  | mk r t =>
    cases r with
    | ok a w' => exact hf a w'
    | error e w' => rfl

theorem note {e : Event η} {x : Unit → Recorded η σ α} {y : WorldM Halt η σ α}
    (h : Records (x ()) y) : Records (Recorded.note e >>= x) y := h

theorem onStore (step : Store η → α × Store η) (events : α → List (Event η)) :
    Records (σ := σ) (Recorded.onStore step events) (Promise.onStore step) := fun _ => rfl

section Operations

variable {deliver : Continuation η → Outcome → Recorded η σ Unit}
  {deliver' : Continuation η → Outcome → WorldM Halt η σ Unit}
  (hd : ∀ k o, Records (deliver k o) (deliver' k o))
include hd

theorem deliverAll (p : PromiseId) (o : Outcome) : ∀ ks : List (Continuation η),
    Records (Recorded.deliverAll deliver p ks o) (Promise.deliverAll deliver' ks o)
  | [] => fun _ => rfl
  | k :: ks => note (bind (hd k o) fun _ => deliverAll p o ks)

theorem settle (p : PromiseId) (o : Outcome) :
    Records (Recorded.settle deliver p o) (Promise.settle deliver' p o) := by
  intro w
  rcases Store.settle_cases p o w.store with ⟨ks, hp, hs⟩ | ⟨o', hp, hs⟩
  · have hr := deliverAll hd p o ks { w with store := (w.store.settle p o).2 }
    simp only [Recorded.settle, Recorded.beginSettle, Promise.settle, Promise.onStore, Bind.bind,
      EStateM.bind, hp, hs] at hr ⊢
    exact hr
  · simp only [Recorded.settle, Recorded.beginSettle, Promise.settle, Promise.onStore, Bind.bind,
      EStateM.bind, hp, hs]
    cases o' <;> rfl

theorem onComplete (p : PromiseId) (k : Continuation η) :
    Records (Recorded.onComplete deliver p k) (Promise.onComplete deliver' p k) := by
  refine bind (onStore _ _) fun answer => ?_
  cases answer with
  | none => exact pure ()
  | some o => exact hd k o

theorem fulfil (p : PromiseId) (o : Outcome) :
    Records (Recorded.fulfil deliver p o) (Promise.fulfil deliver' p o) := by
  rcases concrete_or_promise o with ho | ⟨q, rfl⟩
  · rw [Recorded.fulfil_concrete _ ho, Promise.fulfil_concrete _ ho]
    exact settle hd p o
  · by_cases hq : q = p
    · subst hq
      rw [Recorded.fulfil_self, Promise.fulfil_self]
      exact settle hd q _
    · rw [Recorded.fulfil_other _ hq, Promise.fulfil_other _ hq]
      exact onComplete hd q _

theorem settled (o : Outcome) :
    Records (Recorded.settled deliver o) (Promise.settled deliver' o) :=
  bind (onStore _ _) fun p => bind (fulfil hd p o) fun _ => pure p

theorem derive (p : PromiseId) (h : η) :
    Records (Recorded.derive deliver p h) (Promise.derive deliver' p h) :=
  bind (onStore _ _) fun q => bind (onComplete hd p _) fun _ => pure q

theorem watch (id : GatherId) : ∀ awaited : List (Nat × PromiseId),
    Records (Recorded.watch deliver id awaited) (Promise.watch deliver' id awaited)
  | [] => pure ()
  | (_, p) :: rest => bind (onComplete hd p _) fun _ => watch id rest

theorem all (operands : List Value) :
    Records (Recorded.all deliver operands) (Promise.all deliver' operands) := by
  unfold Recorded.all Promise.all
  cases Promise.places 0 operands with
  | nil => exact settled hd _
  | cons a rest =>
    exact bind (onStore _ _) fun result => bind (onStore _ _) fun id =>
      bind (watch hd id _) fun _ => pure result

theorem deliverStep {handle : η → Outcome → Recorded η σ Outcome}
    {handle' : η → Outcome → WorldM Halt η σ Outcome}
    (hh : ∀ h o, Records (handle h o) (handle' h o)) (k : Continuation η) (o : Outcome) :
    Records (Recorded.deliverStep deliver handle k o) (Promise.deliverStep deliver' handle' k o) := by
  cases k with
  | adopt target => exact fulfil hd target o
  | derive target h => exact note (bind (hh h o) fun answer => fulfil hd target answer)
  | gather id place =>
    refine bind (onStore _ _) fun finished => ?_
    cases finished with
    | none => exact pure ()
    | some c => exact fulfil hd c.1 c.2
  | notify h => exact note (bind (hh h o) fun _ => pure ())

theorem recordWith (r : Routine η σ α) : Records (r.recordWith deliver) (r.run deliver') := by
  induction r with
  | done a => exact pure a
  | panic => exact fun _ => rfl
  | look next ih => exact fun w => ih w w
  | change f next ih => exact fun w => ih { w with rest := f w.rest }
  | new next ih => exact bind (onStore _ _) ih
  | settled o next ih => exact bind (settled hd o) ih
  | fulfil p o next ih => exact bind (fulfil hd p o) fun _ => ih
  | onComplete p k next ih => exact bind (onComplete hd p k) fun _ => ih
  | derive p h next ih => exact bind (derive hd p h) ih
  | all operands next ih => exact bind (all hd operands) ih

end Operations

end Records

namespace Routine

variable {η σ α : Type} (handle : η → Outcome → Routine η σ Outcome)

theorem records_deliver : ∀ (n : Nat) (k : Continuation η) (o : Outcome),
    Records (recordDeliver handle n k o) (deliver handle n k o)
  | 0, _, _ => fun _ => rfl
  | n + 1, k, o =>
    .deliverStep (records_deliver n) (fun h o => .recordWith (records_deliver n) (handle h o)) k o

/-- The result of a recorded routine is the result of the routine. -/
theorem record_fst (n : Nat) (r : Routine η σ α) (w : World η σ) :
    (r.record handle n w).1 = r.perform handle n w :=
  Records.recordWith (records_deliver handle n) r w

end Routine

end Deferral
