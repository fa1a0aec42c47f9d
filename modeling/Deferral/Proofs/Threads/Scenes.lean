import Deferral.Proofs.Promise.Routine
import Deferral.Proofs.Promise.Waiting

/-!
# Threads that share promises

Several threads carry out routines over one store, and any of them may go on at any moment. What must not
be interrupted is a single operation on the store: making a continuation wait for a promise or reading
its outcome (`Store.register`), settling it (`Store.settle`), and putting an outcome into a gather
(`Store.record`). Each of them is a step of its own, and so is each call of a continuation, which happens
outside of them. What a thread has still to do is a list of `Duty`s; a step takes the first of them, and
puts in its place what is left of it (`Duty.act`).

A `Scene` is the store with the duties of all threads, and with a trace of what has happened, which no
step looks at other than to name the continuations: a continuation is known by its promise and by how
many that promise had been given before (`Ticket`). The steps of an interleaving are those of any thread
at any time (`Scene.Step`). A thread on its own does what the routine does when it is performed without
others (`Scene.alone`).
-/

set_option autoImplicit false

namespace Deferral

/-- A continuation, by the promise that was given it and by the number of those given before. -/
structure Ticket where
  promise : PromiseId
  rank : Nat
  deriving DecidableEq

/-- Something that a thread has to do. -/
inductive Duty (η σ : Type) where
  /-- Carry out a routine, and give its answer to the target, if there is one. -/
  | perform (r : Routine η σ Outcome) (target : Option PromiseId)
  | fulfil (p : PromiseId) (o : Outcome)
  | register (p : PromiseId) (k : Continuation η)
  /-- Register a gather with promises, each with its place. -/
  | watch (id : GatherId) (awaited : List (Nat × PromiseId))
  | invoke (ticket : Ticket) (k : Continuation η) (o : Outcome)
  /-- Put the outcome of a promise into a gather. -/
  | record (p : PromiseId) (id : GatherId) (place : Nat) (o : Outcome)

/-- Something that has happened. -/
inductive Mark (η : Type) where
  /-- A promise has been given a continuation, which waits or is due at once. -/
  | given (p : PromiseId) (k : Continuation η)
  /-- The outcome of a promise has been set. -/
  | settled (p : PromiseId) (o : Outcome)
  | invoked (ticket : Ticket) (k : Continuation η) (o : Outcome)
  /-- Operands are to be combined: at once, or in a gather, if some of them are promises. -/
  | gathering (id : Option GatherId) (operands : List Value) (result : PromiseId)
  /-- A gather has yielded a combined outcome. -/
  | combined (id : GatherId) (o : Outcome)
  /-- A program itself has given an outcome to a promise. -/
  | byHand (p : PromiseId)

/-- The outcome of a step: what it leaves of the world, what is to be noted, and what is to be done
next. -/
structure Effect (η σ : Type) where
  world : World η σ
  marks : List (Mark η)
  duties : List (Duty η σ)

instance {η : Type} (s : Store η) (p : PromiseId) : Decidable (s.Has p) :=
  inferInstanceAs (Decidable (p.index < s.promises.size))

section

variable {η σ : Type}

/-! ## The trace -/

namespace Mark

/-- The continuation that has been given to the promise. -/
def given? (p : PromiseId) : Mark η → Option (Continuation η)
  | .given q k => if q = p then some k else none
  | _ => none

def settled? (p : PromiseId) : Mark η → Option Outcome
  | .settled q o => if q = p then some o else none
  | _ => none

def invoked? : Mark η → Option Ticket
  | .invoked ticket _ _ => some ticket
  | _ => none

def combined? (id : GatherId) : Mark η → Option Outcome
  | .combined other o => if other = id then some o else none
  | _ => none

end Mark

/-- What has happened, newest first. -/
abbrev Trace (η : Type) := List (Mark η)

namespace Trace

variable (trace : Trace η)

/-- The continuations the promise has been given, first given first. -/
def givens (p : PromiseId) : List (Continuation η) := (trace.filterMap (Mark.given? p)).reverse

/-- The outcomes that have been set. -/
def settlements (p : PromiseId) : List Outcome := trace.filterMap (Mark.settled? p)

/-- The continuations that have been invoked. -/
def invocations : List Ticket := trace.filterMap Mark.invoked?

/-- The combined outcomes that the gather has yielded. -/
def combinations (id : GatherId) : List Outcome := trace.filterMap (Mark.combined? id)

end Trace

/-! ## Steps -/

/-- The continuations of a promise, due on its outcome one after the other. -/
def Duty.invocations (p : PromiseId) (ks : List (Continuation η)) (o : Outcome) : List (Duty η σ) :=
  ks.zipIdx.map fun x => .invoke ⟨p, x.2⟩ x.1 o

namespace Effect

variable (w : World η σ)

/-- Tests whether a promise is pending, and if so sets its outcome and takes what waits for it. -/
def settle (p : PromiseId) (o : Outcome) : Option (Effect η σ) :=
  if w.store.Has p then
    some ⟨⟨(w.store.settle p o).2, w.rest⟩, if w.store.isPending p then [.settled p o] else [],
      Duty.invocations p (w.store.settle p o).1 o⟩
  else none

/-- Makes a continuation wait for a promise, or reads the outcome that it is due on. -/
def register (trace : Trace η) (p : PromiseId) (k : Continuation η) : Option (Effect η σ) :=
  if w.store.Has p then
    some ⟨⟨(w.store.register p k).2, w.rest⟩, [.given p k],
      (w.store.register p k).1.toList.map fun o => .invoke ⟨p, (trace.givens p).length⟩ k o⟩
  else none

/-- What is left of a routine after its first operation. A program has no other continuations than
those that run its own code. -/
def perform (target : Option PromiseId) : Routine η σ Outcome → Option (Effect η σ)
  | .done answer => some ⟨w, [], target.toList.map fun t => .fulfil t answer⟩
  | .panic => none
  | .look next => some ⟨w, [], [.perform (next w) target]⟩
  | .change f next => some ⟨⟨w.store, f w.rest⟩, [], [.perform next target]⟩
  | .new next => some ⟨⟨w.store.fresh.2, w.rest⟩, [], [.perform (next w.store.fresh.1) target]⟩
  | .settled o next => some ⟨⟨w.store.fresh.2, w.rest⟩, [],
      [.fulfil w.store.fresh.1 o, .perform (next w.store.fresh.1) target]⟩
  | .fulfil p o next => some ⟨w, [.byHand p], [.fulfil p o, .perform next target]⟩
  | .onComplete p (.notify h) next => some ⟨w, [], [.register p (.notify h), .perform next target]⟩
  | .onComplete _ _ _ => none
  | .derive p h next => some ⟨⟨w.store.fresh.2, w.rest⟩, [],
      [.register p (.derive w.store.fresh.1 h), .perform (next w.store.fresh.1) target]⟩
  | .all operands next =>
    let result := w.store.fresh.1
    match Promise.places 0 operands with
    | [] => some ⟨⟨w.store.fresh.2, w.rest⟩, [.gathering none operands result],
        [.fulfil result (.ok (.tuple operands)), .perform (next result) target]⟩
    | awaited =>
      let opened := w.store.fresh.2.addGather ⟨operands, awaited.length, false, result⟩
      some ⟨⟨opened.2, w.rest⟩, [.gathering (some opened.1) operands result],
        [.watch opened.1 awaited, .perform (next result) target]⟩

end Effect

/-- Does the first part of a duty. There is no step for a panic, and none for a promise that has not been
made. -/
def Duty.act (handle : η → Outcome → Routine η σ Outcome) (w : World η σ) (trace : Trace η) :
    Duty η σ → Option (Effect η σ)
  | .perform r target => Effect.perform w target r
  | .fulfil p (.ok (.promise q)) =>
    if q = p then Effect.settle w p (.error (.resolution .selfFulfilment))
    else some ⟨w, [], [.register q (.adopt p)]⟩
  | .fulfil p o => Effect.settle w p o
  | .register p k => Effect.register w trace p k
  | .watch _ [] => some ⟨w, [], []⟩
  | .watch id ((i, p) :: rest) => some ⟨w, [], [.register p (.gather id i), .watch id rest]⟩
  | .invoke ticket k o => some ⟨w, [.invoked ticket k o],
      match k with
      | .adopt t => [.fulfil t o]
      | .derive t h => [.perform (handle h o) (some t)]
      | .gather id i => [.record ticket.promise id i o]
      | .notify h => [.perform (handle h o) none]⟩
  | .record _ id i o =>
    let finished := (w.store.record id i o).1.toList
    some ⟨⟨(w.store.record id i o).2, w.rest⟩, finished.map fun f => .combined id f.2,
      finished.map fun f => .fulfil f.1 f.2⟩

/-- A promise is settled by a duty to give it the outcome, or to give it the promise itself. -/
def Duty.Gives (d : Duty η σ) (p : PromiseId) (o : Outcome) : Prop :=
  d = .fulfil p o ∧ Concrete o ∨
    d = .fulfil p (.ok (.promise p)) ∧ o = .error (.resolution .selfFulfilment)

/-- A duty to give an outcome settles the promise, or makes it adopt another. -/
theorem Duty.act_fulfil {handle : η → Outcome → Routine η σ Outcome} {w : World η σ} {trace : Trace η}
    {effect : Effect η σ} {p : PromiseId} {o : Outcome}
    (h : (Duty.fulfil p o).act handle w trace = some effect) :
    (∃ o', (Duty.fulfil p o : Duty η σ).Gives p o' ∧ Effect.settle w p o' = some effect) ∨
      ∃ q, o = .ok (.promise q) ∧ q ≠ p ∧ effect = ⟨w, [], [.register q (.adopt p)]⟩ := by
  rcases concrete_or_promise o with ho | ⟨q, rfl⟩
  · have hact : (Duty.fulfil p o).act handle w trace = Effect.settle w p o := by
      unfold act
      split <;> simp_all [Concrete]
    exact .inl ⟨o, .inl ⟨rfl, ho⟩, hact.symm.trans h⟩
  · by_cases hq : q = p
    · subst hq
      rw [act, if_pos rfl] at h
      exact .inl ⟨_, .inr ⟨rfl, rfl⟩, h⟩
    · rw [act, if_neg hq] at h
      exact .inr ⟨q, rfl, hq, (Option.some.inj h).symm⟩

/-- The store, what all threads have to do, and what has happened. -/
structure Scene (η σ : Type) where
  world : World η σ
  threads : List (List (Duty η σ))
  trace : Trace η

namespace Scene

variable (handle : η → Outcome → Routine η σ Outcome)

/-- Some promises that all threads know of, and the programs of the threads. -/
def start (shared : Nat) (rest : σ) (programs : List (Routine η σ Outcome)) : Scene η σ :=
  ⟨⟨⟨Array.replicate shared (.pending []), #[]⟩, rest⟩, programs.map fun r => [.perform r none], []⟩

/-- The next step of a thread. -/
def step (i : Nat) (S : Scene η σ) : Option (Scene η σ) :=
  match S.threads[i]? with
  | some (d :: rest) => (d.act handle S.world S.trace).map fun effect =>
      ⟨effect.world, S.threads.set i (effect.duties ++ rest), effect.marks ++ S.trace⟩
  | _ => none

/-- Some thread goes on. -/
def Step (S S' : Scene η σ) : Prop := ∃ i, S.step handle i = some S'

/-- The scene after a schedule, which names the thread that goes on at each moment. -/
def run (schedule : List Nat) (S : Scene η σ) : Option (Scene η σ) :=
  match schedule with
  | [] => some S
  | i :: rest => (S.step handle i).bind (run rest)

/-- All threads have come to their end. -/
def Finished (S : Scene η σ) : Prop := ∀ duties ∈ S.threads, duties = []

/-- What is to be done, by any thread. -/
def duties (S : Scene η σ) : Multiset (Duty η σ) := ↑S.threads.flatten

variable {handle}

/-- A step is an act of one duty; the other duties stay. -/
theorem Step.act {S S' : Scene η σ} (h : Step handle S S') :
    ∃ (d : Duty η σ) (others : Multiset (Duty η σ)) (effect : Effect η σ),
      d.act handle S.world S.trace = some effect ∧ S.duties = d ::ₘ others ∧
      S'.world = effect.world ∧ S'.trace = effect.marks ++ S.trace ∧
      S'.duties = ↑effect.duties + others := by
  obtain ⟨i, hi⟩ := h
  unfold step at hi
  split at hi
  · rename_i d rest hthread
    obtain ⟨effect, hact, rfl⟩ := Option.map_eq_some_iff.1 hi
    obtain ⟨hlt, hget⟩ := List.getElem?_eq_some_iff.1 hthread
    obtain ⟨before, after, hsplit, -, hset⟩ : ∃ before after,
        S.threads = before ++ S.threads[i] :: after ∧
        before.length = i ∧ S.threads.set i (effect.duties ++ rest) =
          before ++ (effect.duties ++ rest) :: after := List.exists_of_set hlt
    rw [hget] at hsplit
    refine ⟨d, ↑(before.flatten ++ (rest ++ after.flatten)), effect, hact, ?_, rfl, rfl, ?_⟩
    · rw [duties, hsplit, List.flatten_append, List.flatten_cons, List.cons_append]
      exact Multiset.coe_eq_coe.2 List.perm_middle
    · rw [duties, hset, List.flatten_append, List.flatten_cons, List.append_assoc]
      simp only [← Multiset.coe_add]
      exact add_left_comm _ _ _
  · cases hi

end Scene

/-! ## A thread on its own -/

namespace Duty

variable (handle : η → Outcome → Routine η σ Outcome)

/-- Does all of a duty at once. -/
def exec (n : Nat) : Duty η σ → WorldM Halt η σ Unit
  | .perform r target => do
    let answer ← r.perform handle n
    match target with
    | some t => Promise.fulfil (Routine.deliver handle n) t answer
    | none => pure ()
  | .fulfil p o => Promise.fulfil (Routine.deliver handle n) p o
  | .register p k => Promise.onComplete (Routine.deliver handle n) p k
  | .watch id awaited => Promise.watch (Routine.deliver handle n) id awaited
  | .invoke _ k o => Routine.deliver handle n k o
  | .record _ id i o => do
    match ← Promise.onStore (Store.record id i o) with
    | some (t, combined) => Promise.fulfil (Routine.deliver handle n) t combined
    | none => pure ()

def execAll (n : Nat) : List (Duty η σ) → WorldM Halt η σ Unit
  | [] => pure ()
  | d :: rest => do
    d.exec handle n
    execAll n rest

variable {handle} {w : World η σ} {trace : Trace η} {effect : Effect η σ}

@[simp] theorem execAll_single (n : Nat) (d : Duty η σ) :
    execAll handle n [d] = d.exec handle n := bind_pure_unit

theorem execAll_invocations (n : Nat) (p : PromiseId) (ks : List (Continuation η)) (o : Outcome)
    (i : Nat) : execAll handle n ((ks.zipIdx i).map fun x => .invoke ⟨p, x.2⟩ x.1 o) =
      Promise.deliverAll (Routine.deliver handle n) ks o := by
  induction ks generalizing i with
  | nil => rfl
  | cons k ks ih =>
    rw [List.zipIdx_cons, List.map_cons, execAll, ih]
    rfl

theorem exec_settle {p : PromiseId} {o : Outcome} (h : Effect.settle w p o = some effect) (n : Nat) :
    Promise.settle (Routine.deliver handle n) p o w =
      execAll handle n effect.duties effect.world := by
  unfold Effect.settle at h
  split at h
  · obtain rfl := Option.some.inj h
    exact (congrFun (execAll_invocations n p _ o 0) _).symm
  · cases h

theorem exec_register {p : PromiseId} {k : Continuation η}
    (h : Effect.register w trace p k = some effect) (n : Nat) :
    Promise.onComplete (Routine.deliver handle n) p k w =
      execAll handle n effect.duties effect.world := by
  unfold Effect.register at h
  split at h
  · obtain rfl := Option.some.inj h
    simp only [Promise.onComplete, Promise.onStore, Bind.bind, EStateM.bind]
    cases (w.store.register p k).1 with
    | none => rfl
    | some o => exact (congrFun (execAll_single n (.invoke _ k o)) _).symm
  · cases h

theorem exec_perform {r : Routine η σ Outcome} {target : Option PromiseId}
    (h : Effect.perform w target r = some effect) (n : Nat) :
    (perform r target).exec handle n w = execAll handle n effect.duties effect.world := by
  cases r with
  | done answer =>
    obtain rfl := Option.some.inj h
    cases target with
    | none => rfl
    | some t => exact (congrFun (execAll_single n _) _).symm
  | panic => cases h
  | look next =>
    obtain rfl := Option.some.inj h
    exact (congrFun (execAll_single n _) _).symm
  | change f next =>
    obtain rfl := Option.some.inj h
    exact (congrFun (execAll_single n _) _).symm
  | new next =>
    obtain rfl := Option.some.inj h
    exact (congrFun (execAll_single n _) _).symm
  | fulfil p o next =>
    obtain rfl := Option.some.inj h
    rw [execAll, execAll_single, exec, exec, Routine.perform, Routine.run, bind_assoc]
    rfl
  | settled o next =>
    obtain rfl := Option.some.inj h
    rw [execAll, execAll_single, exec, exec, Routine.perform, Routine.run, Promise.settled]
    simp only [bind_assoc, pure_bind]
    rfl
  | onComplete p k next =>
    cases k with
    | notify h' =>
      obtain rfl := Option.some.inj h
      rw [execAll, execAll_single, exec, exec, Routine.perform, Routine.run, bind_assoc]
      rfl
    | _ => cases h
  | derive p h' next =>
    obtain rfl := Option.some.inj h
    rw [execAll, execAll_single, exec, exec, Routine.perform, Routine.run, Promise.derive]
    simp only [bind_assoc, pure_bind]
    rfl
  | all operands next =>
    rw [exec, Routine.perform, Routine.run, Promise.all]
    unfold Effect.perform at h
    dsimp only at h
    cases hplaces : Promise.places 0 operands with
    | nil =>
      rw [hplaces] at h
      obtain rfl := Option.some.inj h
      rw [execAll, execAll_single, exec, exec, Routine.perform, Promise.settled]
      simp only [bind_assoc, pure_bind]
      rfl
    | cons x rest =>
      rw [hplaces] at h
      obtain rfl := Option.some.inj h
      rw [execAll, execAll_single, exec, exec, Routine.perform]
      simp only [bind_assoc, pure_bind]
      rfl

theorem exec_fulfil {p : PromiseId} {o : Outcome}
    (h : (fulfil p o).act handle w trace = some effect) (n : Nat) :
    Promise.fulfil (Routine.deliver handle n) p o w =
      execAll handle n effect.duties effect.world := by
  rcases act_fulfil h with ⟨o', hgives, hsettle⟩ | ⟨q, rfl, hq, rfl⟩
  · rw [← exec_settle hsettle]
    rcases hgives with ⟨heq, ho⟩ | ⟨heq, rfl⟩
    · cases heq
      rw [Promise.fulfil_concrete _ ho]
    · cases heq
      rw [Promise.fulfil_self]
  · rw [Promise.fulfil_other _ hq]
    exact (congrFun (execAll_single n (.register q (.adopt p))) _).symm

/-- Doing all of a duty begins with its first part. A continuation that is called takes one unit of
fuel. -/
theorem exec_act {d : Duty η σ} (h : d.act handle w trace = some effect) (n : Nat) :
    ∃ n', n ≤ n' ∧ d.exec handle (n + 1) w = execAll handle n' effect.duties effect.world := by
  cases d with
  | perform r target => exact ⟨n + 1, Nat.le_succ n, exec_perform h (n + 1)⟩
  | fulfil p o => exact ⟨n + 1, Nat.le_succ n, exec_fulfil h (n + 1)⟩
  | register p k => exact ⟨n + 1, Nat.le_succ n, exec_register h (n + 1)⟩
  | watch id awaited =>
    cases awaited with
    | nil =>
      obtain rfl := Option.some.inj h
      exact ⟨n, Nat.le_refl n, rfl⟩
    | cons x rest =>
      obtain rfl := Option.some.inj h
      refine ⟨n + 1, Nat.le_succ n, ?_⟩
      rw [execAll, execAll_single]
      rfl
  | invoke ticket k o =>
    obtain rfl := Option.some.inj h
    refine ⟨n, Nat.le_refl n, ?_⟩
    cases k with
    | adopt t =>
      rw [execAll_single]
      rfl
    | derive t h' =>
      rw [execAll_single]
      rfl
    | gather id i =>
      rw [execAll_single]
      rfl
    | notify h' =>
      rw [execAll_single]
      rfl
  | record p id i o =>
    obtain rfl := Option.some.inj h
    refine ⟨n + 1, Nat.le_succ n, ?_⟩
    simp only [exec, Promise.onStore, Bind.bind, EStateM.bind]
    cases (w.store.record id i o).1 with
    | none => rfl
    | some f => exact (congrFun (execAll_single (n + 1) (.fulfil f.1 f.2)) _).symm

variable (handle) in
/-- Duties that come to an end, one after the other, given enough fuel. -/
def Ends : List (Duty η σ) → World η σ → World η σ → Prop
  | [], w, w' => w' = w
  | d :: rest, w, w' => ∃ w₁, (∃ N, ∀ n, N ≤ n → d.exec handle n w = .ok () w₁) ∧ Ends rest w₁ w'

theorem Ends.append {ds rest : List (Duty η σ)} {w' : World η σ} (h : Ends handle (ds ++ rest) w w') :
    ∃ w₁, Ends handle ds w w₁ ∧ Ends handle rest w₁ w' := by
  induction ds generalizing w with
  | nil => exact ⟨w, rfl, h⟩
  | cons d ds ih =>
    obtain ⟨w₁, hd, hds⟩ := h
    obtain ⟨w₂, hds, hrest⟩ := ih hds
    exact ⟨w₂, ⟨w₁, hd, hds⟩, hrest⟩

theorem Ends.execAll {ds : List (Duty η σ)} {w' : World η σ} (h : Ends handle ds w w') :
    ∃ N, ∀ n, N ≤ n → execAll handle n ds w = .ok () w' := by
  induction ds generalizing w with
  | nil =>
    obtain rfl := h
    exact ⟨0, fun _ _ => rfl⟩
  | cons d ds ih =>
    obtain ⟨w₁, ⟨N, hd⟩, hds⟩ := h
    obtain ⟨N', hds⟩ := ih hds
    refine ⟨max N N', fun n hn => ?_⟩
    have hfirst := hd n (Nat.le_trans (Nat.le_max_left ..) hn)
    have hrest := hds n (Nat.le_trans (Nat.le_max_right ..) hn)
    simp only [Duty.execAll, Bind.bind, EStateM.bind, hfirst]
    exact hrest

/-- What a duty leaves to be done comes to an end where the duty does. -/
theorem Ends.of_act {d : Duty η σ} (hact : d.act handle w trace = some effect)
    {rest : List (Duty η σ)} {w' : World η σ} (h : Ends handle (effect.duties ++ rest) effect.world w') :
    Ends handle (d :: rest) w w' := by
  obtain ⟨w₁, hds, hrest⟩ := h.append
  obtain ⟨N, hN⟩ := hds.execAll
  refine ⟨w₁, ⟨N + 1, fun n hn => ?_⟩, hrest⟩
  obtain ⟨n, rfl⟩ : ∃ n', n = n' + 1 := ⟨n - 1, by omega⟩
  obtain ⟨n', hn', hexec⟩ := exec_act hact n
  rw [hexec]
  exact hN n' (by omega)

end Duty

/-- A thread that is on its own and comes to its end has done what the routine does when it is performed
without others. -/
theorem Scene.alone {handle : η → Outcome → Routine η σ Outcome} {r : Routine η σ Outcome}
    {w : World η σ} {trace : Trace η} {S : Scene η σ}
    (hsteps : Relation.ReflTransGen (Scene.Step handle) ⟨w, [[.perform r none]], trace⟩ S)
    (hend : S.Finished) : ∃ N, ∀ n, N ≤ n → ∃ answer, r.perform handle n w = .ok answer S.world := by
  have hends : ∀ S₀ : Scene η σ, Relation.ReflTransGen (Scene.Step handle) S₀ S → ∀ ds,
      S₀.threads = [ds] → Duty.Ends handle ds S₀.world S.world := by
    intro S₀ hsteps
    induction hsteps using Relation.ReflTransGen.head_induction_on with
    | refl =>
      intro ds hds
      obtain rfl := hend ds (hds ▸ .head _)
      rfl
    | head hstep _ ih =>
      intro ds hds
      obtain ⟨i, hi⟩ := hstep
      rw [Scene.step, hds] at hi
      cases i with
      | succ i => cases hi
      | zero =>
        cases ds with
        | nil => cases hi
        | cons d rest =>
          obtain ⟨effect, hact, rfl⟩ := Option.map_eq_some_iff.1 hi
          exact .of_act hact (ih _ rfl)
  obtain ⟨w₁, ⟨N, hN⟩, hdone⟩ := hends _ hsteps _ rfl
  obtain rfl : S.world = w₁ := hdone
  refine ⟨N, fun n hn => ?_⟩
  have hexec := hN n hn
  simp only [Duty.exec, Bind.bind, EStateM.bind] at hexec
  split at hexec
  · rename_i answer w₂ hr
    obtain rfl : w₂ = S.world := (EStateM.Result.ok.inj hexec).2
    exact ⟨answer, hr⟩
  · cases hexec

end

end Deferral
