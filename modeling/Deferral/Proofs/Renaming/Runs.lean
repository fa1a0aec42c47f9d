import Deferral.Proofs.Eval.Parallel
import Deferral.Proofs.Renaming.Machines

/-!
# The same run in a larger machine

A computation `Echoes` another one if from machines of which the first is embedded in the second it
comes to the same end, renamed, and the machines are still so. This module has one lemma for each way of
putting computations together, and one for each operation on promises. Settling a promise can take more
fuel on the other side, where shadows may wait for it; if there are any, the other side is given more
fuel (`Shadows.lead`), and so it may go on where this side has run out of it (`Corresponds.spent`).
-/

set_option autoImplicit false

namespace Deferral

/-- Why a computation was cut short, with the identities renamed. -/
def Abort.rename (r : Renaming) : Abort → Abort
  | .error e => .error (e.rename r)
  | .panic payload => .panic payload
  | .outOfFuel => .outOfFuel

open Classical in
/-- How much more fuel there has to be on the other side. -/
noncomputable def Shadows.lead (X : Shadows) : Nat := if ∃ x p, X x = some p then 1 else 0

theorem Shadows.lead_none : lead (fun _ => none) = 0 := if_neg (by simp)

theorem Shadows.lead_some {X : Shadows} {x p : PromiseId} (hx : X x = some p) : X.lead = 1 :=
  if_pos ⟨x, p, hx⟩

/-- The second run has ended as the first one has, renamed. -/
inductive Corresponds (r : Renaming) (X : Shadows) {α β : Type} (f : α → β) :
    EStateM.Result Abort Machine α → EStateM.Result Abort Machine β → Prop
  | ok (a : α) {m m' : Machine} (h : m.Embeds r X m') : Corresponds r X f (.ok a m) (.ok (f a) m')
  | error (e : Abort) {m m' : Machine} (h : m.Embeds r X m') :
    Corresponds r X f (.error e m) (.error (e.rename r) m')
  | spent (hX : 0 < X.lead) {m : Machine} {result : EStateM.Result Abort Machine β} :
    Corresponds r X f (.error .outOfFuel m) result

/-- In a machine that the first one is embedded in, the second computation does what the first one does;
`f` renames the result. -/
def Echoes (r : Renaming) (X : Shadows) {α β : Type} (f : α → β) (x : EvalM α)
    (y : EvalM β) : Prop :=
  ∀ m m', m.Embeds r X m' → Corresponds r X f (x m) (y m')

variable {r : Renaming} {X : Shadows} {α β γ δ : Type} {f : α → β} {g : γ → δ}
  {x : EvalM α} {y : EvalM β}

namespace Echoes

theorem pure (a : α) : Echoes r X f (Pure.pure a : EvalM α) (Pure.pure (f a)) :=
  fun _ _ h => .ok a h

theorem fail (e : Error) : Echoes r X f (EvalM.fail e : EvalM α) (EvalM.fail (e.rename r)) :=
  fun _ _ h => .error (.error e) h

theorem throw (e : Abort) : Echoes r X f (throw e : EvalM α) (throw (e.rename r)) :=
  fun _ _ h => .error e h

theorem bind {k : α → EvalM γ} {k' : β → EvalM δ} (hx : Echoes r X f x y)
    (hk : ∀ a, Echoes r X g (k a) (k' (f a))) : Echoes r X g (x >>= k) (y >>= k') := by
  intro m m' h
  have hr := hx m m' h
  change Corresponds r X g (EStateM.bind x k m) (EStateM.bind y k' m')
  unfold EStateM.bind
  generalize x m = result, y m' = result' at hr
  cases hr with
  | ok a h => exact hk a _ _ h
  | error e h => exact .error e h
  | spent hX => exact .spent hX

theorem ofExcept (result : Except Error α) :
    Echoes r X f (EvalM.ofExcept result) (EvalM.ofExcept (renameResult r f result)) := by
  cases result with
  | ok a => exact pure a
  | error e => exact fail e

/-- Both look at something that is the same up to the names. -/
theorem gets {look : Machine → α} {look' : Machine → β}
    (hlook : ∀ m m', m.Embeds r X m' → look' m' = f (look m)) :
    Echoes r X f (EvalM.gets look) (EvalM.gets look') := by
  intro m m' h
  change Corresponds r X f (.ok (look m) m) (.ok (look' m') m')
  rw [hlook m m' h]
  exact .ok _ h

theorem environment : Echoes r X (Environment.rename r) EvalM.environment EvalM.environment :=
  gets fun _ _ h => h.env

/-- There is a text on both sides, or on none. -/
theorem written {text : Machine → Option α} {text' : Machine → Option β}
    (htext : ∀ m m', m.Embeds r X m' → text' m' = (text m).map f) :
    Echoes r X f (EvalM.written text) (EvalM.written text') := by
  intro m m' h
  unfold EvalM.written
  rw [htext m m' h]
  cases text m with
  | none => exact .error .outOfFuel h
  | some a => exact .ok a h

theorem quoted (v : Value) : Echoes r X id (EvalM.quoted v) (EvalM.quoted (v.rename r)) :=
  written fun _ _ h => by rw [h.quoted?, Option.map_id_fun, id]

theorem noMatch (v : Value) :
    Echoes r X f (EvalM.noMatch v : EvalM α) (EvalM.noMatch (v.rename r)) :=
  bind (quoted v) fun _ => fail _

theorem ensuring {after after' : Machine → Machine} (hx : Echoes r X f x y)
    (hafter : ∀ m m', m.Embeds r X m' → (after m).Embeds r X (after' m')) :
    Echoes r X f (EvalM.ensuring x after) (EvalM.ensuring y after') := by
  intro m m' h
  have hr := hx m m' h
  unfold EvalM.ensuring
  generalize x m = result, y m' = result' at hr
  cases hr with
  | ok a h => exact .ok a (hafter _ _ h)
  | error e h => exact .error e (hafter _ _ h)
  | spent hX => exact .spent hX

theorem outcome (hx : Echoes r X f x y) :
    Echoes r X (renameResult r f) (EvalM.outcome x) (EvalM.outcome y) := by
  intro m m' h
  have hr := hx m m' h
  unfold EvalM.outcome
  generalize x m = result, y m' = result' at hr
  cases hr with
  | ok a h => exact .ok (Except.ok a) h
  | error e h =>
    cases e with
    | error e => exact .ok (Except.error e) h
    | panic payload => exact .error (.panic payload) h
    | outOfFuel => exact .error .outOfFuel h
  | spent hX => exact .spent hX

theorem contained (hx : Echoes r X f x y) :
    Echoes r X (renameResult r f) (EvalM.contained x) (EvalM.contained y) := by
  intro m m' h
  have hr := hx m m' h
  unfold EvalM.contained
  generalize x m = result, y m' = result' at hr
  cases hr with
  | ok a h => exact .ok (Except.ok a) h
  | error e h =>
    cases e with
    | error e => exact .ok (Except.error e) h
    | panic payload => exact .ok (Except.error (Error.taskFailed (payload.getD "task panicked"))) h
    | outOfFuel => exact .error .outOfFuel h
  | spent hX => exact .spent hX

theorem traced (stack : StackTrace) (hx : Echoes r X f x y) :
    Echoes r X f (EvalM.traced stack x) (EvalM.traced stack y) := by
  intro m m' h
  have hr := hx m m' h
  unfold EvalM.traced
  generalize x m = result, y m' = result' at hr
  cases hr with
  | ok a h => exact .ok a h
  | error e h =>
    cases e with
    | error e =>
      change Corresponds r X f _ (.error (.error ((e.rename r).withStack stack)) _)
      rw [← Error.withStack_rename]
      exact .error (.error (e.withStack stack)) h
    | panic payload => exact .error (.panic payload) h
    | outOfFuel => exact .error .outOfFuel h
  | spent hX => exact .spent hX

theorem within {env : Environment} (hx : Echoes r X f x y) :
    Echoes r X f (EvalM.within env x) (EvalM.within (env.rename r) y) := by
  intro m m' h
  have hm : EvalM.within env x m =
      EvalM.ensuring x (fun m₁ => m₁.withEnv m.rest.env) (m.withEnv env) := rfl
  have hm' : EvalM.within (env.rename r) y m' =
      EvalM.ensuring y (fun m₁ => m₁.withEnv (m.rest.env.rename r)) (m'.withEnv (env.rename r)) := by
    rw [← h.env]
    rfl
  rw [hm, hm']
  exact ensuring hx (fun _ _ h₁ => h₁.withEnv _) _ _ (h.withEnv env)

theorem modifyEnvironment {change change' : Environment → Environment}
    (hchange : ∀ env : Environment, change' (env.rename r) = (change env).rename r) :
    Echoes r X id (EvalM.modifyEnvironment change) (EvalM.modifyEnvironment change') := by
  intro m m' h
  have hm' : EvalM.modifyEnvironment change' m' =
      .ok () (m'.withEnv ((change m.rest.env).rename r)) := by
    rw [← hchange, ← h.env]
    rfl
  rw [hm']
  exact .ok () (h.withEnv _)

theorem define (bindings : List (String × Value)) :
    Echoes r X id (EvalM.modifyEnvironment (·.defineAll bindings))
      (EvalM.modifyEnvironment (·.defineAll (renameBindings r bindings))) :=
  modifyEnvironment fun env => (env.defineAll_rename r bindings).symm

theorem inFrame (hx : Echoes r X f x y) : Echoes r X f (EvalM.inFrame x) (EvalM.inFrame y) := by
  refine bind (modifyEnvironment fun env => (env.openFrame_rename r).symm) fun _ => ?_
  refine ensuring hx fun m m' h => ?_
  change (m.withEnv m.rest.env.closeFrame).Embeds r X (m'.withEnv m'.rest.env.closeFrame)
  rw [h.env, ← Environment.closeFrame_rename]
  exact h.withEnv _

theorem addFunction (f : Function) :
    Echoes r X r.function (EvalM.addFunction f) (EvalM.addFunction (f.rename r)) := by
  intro m m' h
  have hid : FunctionId.mk m'.rest.functions.size = r.function ⟨m.rest.functions.size⟩ :=
    (h.nextFunction 0).symm
  change Corresponds _ _ _ (.ok (FunctionId.mk m.rest.functions.size) (m.withFunction f))
    (.ok (FunctionId.mk m'.rest.functions.size) (m'.withFunction (f.rename r)))
  rw [hid]
  exact .ok _ (h.withFunction f)

theorem log (entry entry' : LogEntry) : Echoes r X id (EvalM.log entry) (EvalM.log entry') :=
  fun _ _ h => .ok () (h.withLogs _ _)

theorem logValues (values values' : List Value) :
    Echoes r X id (EvalM.logValues values) (EvalM.logValues values') :=
  fun _ _ h => .ok () (h.withLogs _ _)

theorem interrupt : Echoes r X id (EvalM.modifyRest ({ · with interrupted := true }))
    (EvalM.modifyRest ({ · with interrupted := true })) :=
  fun _ _ h => .ok () (h.withInterrupted true)

theorem registerModule (module : Module) :
    Echoes r X id (Deferral.registerModule module) (Deferral.registerModule (module.rename r)) :=
  fun _ _ h => .ok () (h.withModule module)

theorem enqueue (task : Task) :
    Echoes r X id (Engine.enqueue task) (Engine.enqueue (task.rename r)) := by
  intro m m' h
  have hm' : Engine.enqueue (task.rename r) m' =
      .ok () (m'.withQueue ((m.rest.queue ++ [task]).map (Task.rename r))) := by
    rw [List.map_append, ← h.queue]
    rfl
  rw [hm']
  exact .ok () (h.withQueue _)

end Echoes

/-! ## Promises -/

theorem Concrete.rename {o : Outcome} (h : Concrete o) : Concrete (o.rename r) := by
  intro q hq
  cases o with
  | error e => cases hq
  | ok v =>
    cases v with
    | promise p => exact h p rfl
    | _ => cases hq

/-- Two ways of running continuations come to the same end, and the second one lets a shadow adopt the
outcome of its promise without any other effect. -/
structure InLine (r : Renaming) (X : Shadows)
    (d d' : Continuation Handler → Outcome → EvalM Unit) : Prop where
  deliver : ∀ k o, Echoes r X id (d k o) (d' (k.rename r) (o.rename r))
  adopt : ∀ {x p o m m'}, X x = some p → Concrete o → m.Embeds r X m' → m.store.outcome? p = some o →
    Corresponds r X id (.ok () m) (d' (.adopt x) (o.rename r) m')
  /-- Promises that are settled stay so. -/
  keeps : ∀ {k o m m₁ p o'}, d k o m = .ok () m₁ → m.store.outcome? p = some o' →
    m₁.store.outcome? p = some o'

namespace Echoes

/-- Goes on with a new promise. -/
theorem new : Echoes r X r.promise Promise.new Promise.new := by
  intro m m' h
  change Corresponds _ _ _ (.ok m.store.fresh.1 (m.withStore m.store.fresh.2))
    (.ok m'.store.fresh.1 (m'.withStore m'.store.fresh.2))
  rw [h.store.fresh_fst]
  exact .ok _ h.fresh

theorem addGather (g : Gather) : Echoes r X r.gather (Promise.onStore (Store.addGather g))
    (Promise.onStore (Store.addGather (g.rename r))) := by
  intro m m' h
  change Corresponds _ _ _ (.ok (m.store.addGather g).1 (m.withStore (m.store.addGather g).2))
    (.ok (m'.store.addGather (g.rename r)).1 (m'.withStore (m'.store.addGather (g.rename r)).2))
  rw [h.store.addGather_fst]
  exact .ok _ (h.withStore (h.store.addGather g))

theorem record (id : GatherId) (place : Nat) (o : Outcome) :
    Echoes r X (Option.map fun c => (r.promise c.1, Outcome.rename r c.2))
      (Promise.onStore (Store.record id place o))
      (Promise.onStore (Store.record (r.gather id) place (o.rename r))) := by
  intro m m' h
  change Corresponds _ _ _
    (.ok (m.store.record id place o).1 (m.withStore (m.store.record id place o).2))
    (.ok (m'.store.record (r.gather id) place (o.rename r)).1
      (m'.withStore (m'.store.record (r.gather id) place (o.rename r)).2))
  rw [h.store.record_fst]
  exact .ok _ (h.withStore (h.store.record id place o))

theorem register (p : PromiseId) (k : Continuation Handler) :
    Echoes r X (Option.map (Outcome.rename r)) (Promise.onStore (Store.register p k))
      (Promise.onStore (Store.register (r.promise p) (k.rename r))) := by
  intro m m' h
  change Corresponds _ _ _ (.ok (m.store.register p k).1 (m.withStore (m.store.register p k).2))
    (.ok (m'.store.register (r.promise p) (k.rename r)).1
      (m'.withStore (m'.store.register (r.promise p) (k.rename r)).2))
  rcases (h.store.state p).elim with ⟨o, hs, hs'⟩ | ⟨ks, ks', hs, hs', htracks⟩
  · rw [Store.register_settled hs, Store.register_settled hs']
    exact .ok (some o) h
  · rw [Store.register_pending hs, Store.register_pending hs']
    have hp : m.store.outcome? p = none := by
      rw [Store.outcome?, hs]
      rfl
    exact .ok none (h.withStore (h.store.setState hp (.pending (htracks.snoc k))))

end Echoes

/-- A shadow adopts the outcome of its promise. -/
theorem Machine.Embeds.adopt {m m' : Machine} (h : m.Embeds r X m') {x p : PromiseId}
    (hx : X x = some p) {o : Outcome} (ho : Concrete o) (hp : m.store.outcome? p = some o)
    (d : Continuation Handler → Outcome → EvalM Unit) :
    Corresponds r X id (.ok () m) (Promise.fulfil d x (o.rename r) m') := by
  rw [Promise.fulfil_concrete d ho.rename, Promise.settle_apply]
  rcases h.store.shadow hx with hs | ⟨o', -, hs⟩
  · rw [Store.settle_pending hs]
    exact .ok () (h.withStore (h.store.settleShadow hx hp))
  · rw [Store.settle_settled hs]
    exact .ok () h

namespace InLine

variable {d d' : Continuation Handler → Outcome → EvalM Unit} (hd : InLine r X d d')
include hd

theorem deliverAll {o : Outcome} (ho : Concrete o) {p : PromiseId}
    {ks ks' : List (Continuation Handler)} (hks : Tracks r X p ks ks') {m m' : Machine}
    (h : m.Embeds r X m') (hp : ks' ≠ [] → m.store.outcome? p = some o) :
    Corresponds r X id (Promise.deliverAll d ks o m) (Promise.deliverAll d' ks' (o.rename r) m') := by
  induction hks generalizing m m' with
  | nil => exact .ok () h
  | cons k _ ih =>
    have hr := hd.deliver k o m m' h
    change Corresponds r X id (EStateM.bind _ _ m) (EStateM.bind _ _ m')
    unfold EStateM.bind
    generalize hresult : d k o m = result, d' (k.rename r) (o.rename r) m' = result' at hr
    cases hr with
    | ok _ h₁ => exact ih h₁ fun _ => hd.keeps hresult (hp (List.cons_ne_nil _ _))
    | error e h₁ => exact .error e h₁
    | spent hX => exact .spent hX
  | adopt hx _ ih =>
    have hr := hd.adopt hx ho h (hp (List.cons_ne_nil _ _))
    change Corresponds r X id _ (EStateM.bind _ _ m')
    unfold EStateM.bind
    generalize d' (.adopt _) (o.rename r) m' = result' at hr
    cases hr with
    | ok _ h₁ => exact ih h₁ fun _ => hp (List.cons_ne_nil _ _)

theorem settle (p : PromiseId) {o : Outcome} (ho : Concrete o) :
    Echoes r X id (Promise.settle d p o) (Promise.settle d' (r.promise p) (o.rename r)) := by
  intro m m' h
  rw [Promise.settle_apply, Promise.settle_apply]
  rcases (h.store.state p).elim with ⟨o', hs, hs'⟩ | ⟨ks, ks', hs, hs', htracks⟩
  · rw [Store.settle_settled hs, Store.settle_settled hs']
    exact .ok () h
  · rw [Store.settle_pending hs, Store.settle_pending hs']
    have hp : m.store.outcome? p = none := by
      rw [Store.outcome?, hs]
      rfl
    refine hd.deliverAll ho htracks (h.withStore (h.store.setState hp (.settled o))) fun hne => ?_
    refine Store.outcome?_setState_self (Classical.byContradiction fun hhas => hne ?_) o
    rw [Store.state_of_not_has (mt h.store.has.1 hhas)] at hs'
    exact (PromiseState.pending.inj hs').symm

theorem onComplete (p : PromiseId) (k : Continuation Handler) :
    Echoes r X id (Promise.onComplete d p k)
      (Promise.onComplete d' (r.promise p) (k.rename r)) := by
  refine .bind (.register p k) fun o => ?_
  cases o with
  | none => exact .pure ()
  | some o => exact hd.deliver k o

theorem fulfil (p : PromiseId) (o : Outcome) :
    Echoes r X id (Promise.fulfil d p o) (Promise.fulfil d' (r.promise p) (o.rename r)) := by
  rcases concrete_or_promise o with ho | ⟨q, rfl⟩
  · rw [Promise.fulfil_concrete d ho, Promise.fulfil_concrete d' ho.rename]
    exact hd.settle p ho
  · change Echoes r X id _ (Promise.fulfil d' (r.promise p) (.ok (.promise (r.promise q))))
    by_cases hq : q = p
    · subst hq
      rw [Promise.fulfil_self, Promise.fulfil_self]
      exact hd.settle q (concrete_error _)
    · rw [Promise.fulfil_other d hq, Promise.fulfil_other d' (mt r.promise_inj.1 hq)]
      exact hd.onComplete q (.adopt p)

theorem settled (o : Outcome) :
    Echoes r X r.promise (Promise.settled d o) (Promise.settled d' (o.rename r)) :=
  .bind .new fun p => .bind (hd.fulfil p o) fun _ => .pure p

theorem derive (p : PromiseId) (handler : Handler) :
    Echoes r X r.promise (Promise.derive d p handler)
      (Promise.derive d' (r.promise p) (handler.rename r)) :=
  .bind .new fun q => .bind (hd.onComplete p (.derive q handler)) fun _ => .pure q

theorem watch (id' : GatherId) : ∀ awaited : List (Nat × PromiseId),
    Echoes r X id (Promise.watch d id' awaited)
      (Promise.watch d' (r.gather id') (awaited.map fun a => (a.1, r.promise a.2)))
  | [] => .pure ()
  | (i, p) :: rest => .bind (hd.onComplete p (.gather id' i)) fun _ => watch id' rest

theorem all (operands : List Value) :
    Echoes r X r.promise (Promise.all d operands)
      (Promise.all d' (operands.map (Value.rename r))) := by
  unfold Promise.all
  rw [Promise.places_rename]
  cases hplaces : Promise.places 0 operands with
  | nil =>
    have hsettled := hd.settled (.ok (.tuple operands))
    simp only [renameResult, Value.rename_tuple] at hsettled
    exact hsettled
  | cons a rest =>
    refine .bind .new fun result => ?_
    have hgather := Echoes.addGather (r := r) (X := X)
      ⟨operands, (a :: rest).length, false, result⟩
    simp only [Gather.rename] at hgather
    simp only [List.map_cons, List.length_cons, List.length_map] at hgather ⊢
    exact .bind hgather fun id' => .bind (hd.watch id' (a :: rest)) fun _ => .pure result

/-- One level of running continuations, if the handlers do the same. -/
theorem deliverStep {handle handle' : Handler → Outcome → EvalM Outcome}
    (hh : ∀ h o, Echoes r X (Outcome.rename r) (handle h o) (handle' (h.rename r) (o.rename r)))
    (hkeeps : ∀ {k o m m₁ p o'}, Promise.deliverStep d handle k o m = .ok () m₁ →
      m.store.outcome? p = some o' → m₁.store.outcome? p = some o') :
    InLine r X (Promise.deliverStep d handle) (Promise.deliverStep d' handle') where
  deliver k o := by
    cases k with
    | adopt target => exact hd.fulfil target o
    | derive target handler => exact .bind (hh handler o) fun answer => hd.fulfil target answer
    | gather id' place =>
      refine .bind (.record id' place o) fun combined => ?_
      cases combined with
      | none => exact .pure ()
      | some c => exact hd.fulfil c.1 c.2
    | notify handler => exact .bind (hh handler o) fun _ => .pure ()
  adopt hx ho h hp := h.adopt hx ho hp d'
  keeps := hkeeps

end InLine

end Deferral
