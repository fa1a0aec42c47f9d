import Deferral.Proofs.Eval.Derived
import Deferral.Proofs.Eval.Selection
import Deferral.Proofs.Renaming.Shadows

/-!
# Failures now and later

An attempt catches an error whether its body fails at once, yields a promise that has failed, or yields
one that fails later on. In all three cases the same triple is matched against the arms in the same
scope, and what comes of that is the same, up to the names of what is made on the way
(`attempts_alike`). The three are compared with a selection in a machine that has nothing beside what
they have in common.
-/

set_option autoImplicit false

namespace Deferral

/-! ## Outcomes once they are forced -/

/-- What an outcome comes to once the promise that it may be is settled. -/
def Store.forced (s : Store Handler) : Outcome → Option Outcome
  | .ok (.promise p) => s.outcome? p
  | o => some o

theorem Store.forced_concrete (s : Store Handler) {o : Outcome} (ho : Concrete o) :
    s.forced o = some o := by
  unfold forced
  split
  · exact absurd rfl (ho _)
  · rfl

/-- Two outcomes, each in its machine, come to the same: whatever a host lets happen in the first
machine, other than evaluating something itself, it can let happen in the second one, and then both are
forced to the same outcome, up to the names. -/
def ForcedAlike (context : Context) (r : Renaming) (o : Outcome) (m : Machine) (o' : Outcome)
    (m' : Machine) : Prop :=
  ∀ turns, Turn.Idle turns → ∀ m₁,
    Converges (fun n => Turn.runAll (engine context n) turns m) (.ok () m₁) →
    ∃ m₁', Converges (fun n => Turn.runAll (engine context n) (turns.map (Turn.rename r)) m')
        (.ok () m₁') ∧
      m₁'.store.forced o' = (m₁.store.forced o).map (Outcome.rename r)

section

variable {context : Context} {r : Renaming} {X : Shadows} {m m' : Machine} {env : Environment}
  {o : Outcome}

/-- An outcome in a machine and the same outcome in a larger one. -/
theorem ForcedAlike.of_embeds (hnatural : context.Natural r)
    (h : m.Embeds r X (m'.withEnv env)) (hflat : m'.store.Flat) :
    ForcedAlike context r o m (o.rename r) m' := by
  intro turns hidle m₁ hrun
  obtain ⟨m₁', hrun', h₁⟩ := Turn.runAll_embedded hnatural h hflat hidle hrun
  refine ⟨m₁', hrun', ?_⟩
  rcases concrete_or_promise o with ho | ⟨p, rfl⟩
  · rw [Store.forced_concrete _ ho, Store.forced_concrete _ ho.rename, Option.map_some]
  · exact h₁.outcome? p

/-- An outcome, and a promise that has been settled with it. -/
theorem ForcedAlike.of_settled (hnatural : context.Natural r) (h : m.Embeds r X (m'.withEnv env))
    (hflat : m'.store.Flat) (ho : Concrete o) {q : PromiseId}
    (hq : m'.store.outcome? q = some (o.rename r)) :
    ForcedAlike context r o m (.ok (.promise q)) m' := by
  intro turns hidle m₁ hrun
  obtain ⟨m₁', ⟨N, hN⟩, -⟩ := Turn.runAll_embedded hnatural h hflat hidle hrun
  refine ⟨m₁', ⟨N, hN⟩, ?_⟩
  have hevolves := (Turn.conduct_runAll context N (turns.map (Turn.rename r)) m').evolves
  have hr : Turn.runAll (engine context N) (turns.map (Turn.rename r)) m' = .ok () m₁' :=
    hN N (Nat.le_refl N)
  rw [hr] at hevolves
  rw [Store.forced_concrete _ ho]
  exact hevolves.outcome? hq

/-- A promise, and one that has adopted it. -/
theorem ForcedAlike.of_adopted (hnatural : context.Natural r) (h : m.Embeds r X (m'.withEnv env))
    {p q : PromiseId} (hq : X q = some p) (hmade : Adoption.Made ⟨r.promise p, q⟩ m')
    (hholds : Adoption.Holds ⟨r.promise p, q⟩ 0 m'.store) :
    ForcedAlike context r (.ok (.promise p)) m (.ok (.promise q)) m' := by
  intro turns hidle m₁ hrun
  obtain ⟨m₁', ⟨N, hN⟩, h₁⟩ := Turn.runAll_embedded hnatural h hmade.flat hidle hrun
  exact ⟨m₁', ⟨N, hN⟩, h₁.outcome?_shadow hq (Adoption.runAll hmade hholds (hN N (Nat.le_refl N)))⟩

end

/-! ## Recovery in a larger machine -/

/-- Nothing in the machine, in the arms or in the error is about things that the machine does not have,
and the host passes on what it is given without looking at identities. -/
structure Closed (context : Context) (m : Machine) (arms : List Arm) (e : Error) : Prop where
  fixes : ∀ r : Renaming, r.Keeps m → r.Fixes m
  arms : ∀ r : Renaming, r.Keeps m → Expr.renameArms r arms = arms
  error : ∀ r : Renaming, r.Keeps m → e.rename r = e
  natural : ∀ r : Renaming, r.Keeps m → context.Natural r

/-- What a handler matches against its arms, if there is a text for it. -/
def Machine.triple? (m : Machine) (e : Error) : Option Value := m.directory.triple? m.rest.env.calls e

namespace Engine

variable {m : Machine} {e : Error} {triple : Value}

theorem recover_eq (h : m.triple? e = some triple) (E : Engine) (arms : List Arm) :
    E.recover e arms m = E.select triple arms (.rethrow e) m :=
  EvalM.bind_of_ok (EvalM.written_of_some h)

theorem outcome_recover (h : m.triple? e = some triple) (E : Engine) (arms : List Arm) :
    EvalM.outcome (E.recover e arms) m = EvalM.outcome (E.select triple arms (.rethrow e)) m := by
  rw [EvalM.outcome, EvalM.outcome, recover_eq h]

/-- Without a text there is no recovery. -/
theorem outcome_recover_of_none (h : m.triple? e = none) (E : Engine) (arms : List Arm) :
    EvalM.outcome (E.recover e arms) m = .error .outOfFuel m := by
  have hrecover : E.recover e arms m = .error .outOfFuel m :=
    EvalM.bind_of_error (EvalM.written_of_none h)
  rw [EvalM.outcome, hrecover]

end Engine

theorem EvalM.outcome_within {α : Type} (env : Environment) (x : EvalM α) (m : Machine) :
    EvalM.outcome (EvalM.within env x) m =
      endWith m.rest.env (EvalM.outcome x (m.withEnv env)) := by
  have hx : EvalM.within env x m =
      EvalM.ensuring x (fun m₁ => m₁.withEnv m.rest.env) (m.withEnv env) := rfl
  rw [EvalM.outcome, hx, EvalM.ensuring, EvalM.outcome]
  cases x (m.withEnv env) with
  | ok a m₁ => rfl
  | error e m₁ => cases e <;> rfl

/-- A failure that can be caught is recovered from in the scope of the attempt. -/
theorem Engine.handle_recover {e : Error} (he : e.catchable = true) (E : Engine) (arms : List Arm)
    (env : Environment) (m : Machine) :
    E.handle (.recover arms env) (.error e) m =
      endWith m.rest.env (EvalM.outcome (E.recover e arms) (m.withEnv env)) := by
  have hhandle : E.handle (.recover arms env) (.error e) =
      EvalM.outcome (EvalM.within env (E.recover e arms)) := by
    rw [Engine.handle, if_pos he]
  rw [hhandle, EvalM.outcome_within]

theorem Converges.bind {α β : Type} {x : Nat → EvalM α} {f : Nat → α → EvalM β} {m m' : Machine} {a : α}
    {result : EStateM.Result Abort Machine β} (hx : Converges (fun n => x n m) (.ok a m'))
    (hf : Converges (fun n => f n a m') result) : Converges (fun n => (x n >>= f n) m) result := by
  obtain ⟨N, hN⟩ := hx
  obtain ⟨N', hN'⟩ := hf
  refine ⟨max N N', fun n hn => ?_⟩
  have hr : x n m = .ok a m' := hN n (Nat.le_trans (Nat.le_max_left ..) hn)
  exact (EvalM.bind_of_ok hr).trans (hN' n (Nat.le_trans (Nat.le_max_right ..) hn))

section

variable {context : Context} {m m' mᵣ : Machine} {arms : List Arm} {e : Error} {o : Outcome}

/-- The same triple is matched in a machine that has more. -/
theorem Machine.Extends.triple? (h : m.Extends m') (hclosed : Closed context m arms e) :
    m'.triple? e = m.triple? e := by
  have hkeeps := m.past_keeps m'
  have hdirectory := (h.embeds (hclosed.fixes _ hkeeps) (X := fun _ => none) nofun).directory
  have htriple := hdirectory.triple? m'.rest.env.calls e
  rw [hclosed.error _ hkeeps] at htriple
  rw [Machine.triple?, htriple, h.env]
  rfl

theorem evolves_recover
    (hrun : Converges (fun n => EvalM.outcome ((engine context n).recover e arms) m) (.ok o mᵣ)) :
    Evolves m mᵣ := by
  obtain ⟨N, hN⟩ := hrun
  have hevolves := (((conducted_engine context N).recover e arms).outcome m).evolves
  have hr : EvalM.outcome ((engine context N).recover e arms) m = .ok o mᵣ := hN N (Nat.le_refl N)
  rwa [hr] at hevolves

/-- Recovery comes to the same in a machine that has more. -/
theorem Machine.Extends.recovers (h : m.Extends m') (hclosed : Closed context m arms e)
    (hflat : m'.store.Flat) {X : Shadows} (hX : ∀ x p, X x = some p →
      ¬m.store.Has x ∧ m'.store.Has x ∧ m'.store.state x = .pending [])
    (hrun : Converges (fun n => EvalM.outcome ((engine context n).recover e arms) m) (.ok o mᵣ)) :
    ∃ m₁', Converges (fun n => EvalM.outcome ((engine context n).recover e arms) m')
        (.ok (o.rename (m.past m')) m₁') ∧
      mᵣ.Embeds (m.past m') X m₁' ∧ m₁'.store.Flat := by
  have hkeeps := m.past_keeps m'
  refine Corresponds.converges (fun n => ?_) hrun (finishes_recover hflat e arms)
  have hechoes := (natural_engine (hclosed.natural _ hkeeps) n (X := X)).recover e arms
  rw [hclosed.error _ hkeeps, hclosed.arms _ hkeeps] at hechoes
  exact hechoes.outcome m m' (h.embeds (hclosed.fixes _ hkeeps) hX)

/-- A promise is given what has come of a recovery. It is a shadow so far that nothing has come of. -/
theorem Machine.Embeds.answers {r : Renaming} (hnatural : context.Natural r) {q p₀ : PromiseId}
    {env : Environment} (h : mᵣ.Embeds r (.only q p₀) (m'.withEnv env)) (hp₀ : ¬mᵣ.store.Has p₀)
    (hflat : mᵣ.store.Flat) (hflat' : m'.store.Flat) (hq : m'.store.Has q)
    (hmade : ∀ p, o = .ok (.promise p) → mᵣ.store.Has p) :
    ∃ m₁, Converges (fun n => Promise.fulfil (engine context n).deliver q (o.rename r) m')
        (.ok () m₁) ∧ ForcedAlike context r o mᵣ (.ok (.promise q)) m₁ := by
  have hshadow := Shadows.only_self q p₀
  have hunmade : ∀ {x p}, Shadows.only q p₀ x = some p → ¬mᵣ.store.Has p := by
    intro x p hx
    rwa [(Shadows.eq_of_only hx).2]
  have hpending : m'.store.state q = .pending [] := by
    rcases h.store.shadow hshadow with hs | ⟨o', ho', -⟩
    · exact hs
    · rw [Store.outcome?, Store.state_of_not_has hp₀] at ho'
      cases ho'
  rcases concrete_or_promise o with ho | ⟨p, rfl⟩
  · -- the promise is settled, and it is no shadow any more
    have hbare : mᵣ.store.Embeds r (fun _ => none) m'.store :=
      h.store.retarget hunmade fun hx => by cases hx
    have hnone := hbare.setUnshared (h.store.unshared hshadow) rfl (.ofOutcome (o.rename r))
    let m₁ := m'.withStore (m'.store.setState q (.ofOutcome (o.rename r)))
    have h₁ : mᵣ.Embeds r (fun _ => none) (m₁.withEnv env) :=
      { h with store := hnone }
    refine ⟨m₁, ⟨0, fun n _ => ?_⟩, ?_⟩
    · change Promise.fulfil _ q _ m' = _
      rw [Promise.fulfil_concrete _ ho.rename, Promise.settle_quiet _ hpending]
    · exact .of_settled hnatural h₁ ((evolves_settle hpending ho.rename).flat hflat') ho
        (Store.outcome?_setState_self hq _)
  · -- the promise adopts the one that stands for the rest
    have hstore : mᵣ.store.Embeds r (.only q p) m'.store :=
      h.store.retarget hunmade fun hx he => by
        rw [(Shadows.eq_of_only hx).1, hshadow] at he
        cases he
    have hadopts : mᵣ.Embeds r (.only q p) (m'.withEnv env) := { h with store := hstore }
    have hne : r.promise p ≠ q := h.store.unshared hshadow p
    have hscoped : (m'.withEnv env).store.Flat := hflat'
    have hfinishes : Finishes context (fun n => Promise.fulfil (engine context n).deliver q
        (.ok (.promise (r.promise p)))) (m'.withEnv env) := finishes_fulfil hscoped q _
    simp only [Promise.fulfil_other _ hne] at hfinishes
    obtain ⟨m₁, hrun, h₁, -⟩ := Corresponds.converges (x := fun _ => pure ())
      (fun n => (natural_engine hnatural n).deliver.adopting (Shadows.only_self q p) hadopts hflat)
      ⟨0, fun _ _ => rfl⟩ hfinishes
    have hscopeless : ∀ n, Scopeless (Promise.onComplete (engine context n).deliver (r.promise p)
        (.adopt q)) := fun n =>
      Scopeless.composed.onComplete (Scopeless.deliver context n) _ _
    obtain ⟨N, hN⟩ := Scopeless.converges hscopeless hrun
    have hmade₁ : Adoption.Made ⟨r.promise p, q⟩ m' :=
      ⟨hflat', hstore.has.2 (hmade p rfl), hq⟩
    obtain ⟨hmade₂, hholds⟩ := Adoption.start hmade₁ (hN N (Nat.le_refl N))
    have h₂ : mᵣ.Embeds r (.only q p) ((m₁.withEnv m'.rest.env).withEnv m₁.rest.env) := h₁
    refine ⟨m₁.withEnv m'.rest.env, ⟨N, fun n hn => ?_⟩,
      .of_adopted hnatural h₂ (Shadows.only_self q p) hmade₂ hholds⟩
    change Promise.fulfil _ q (.ok (.promise (r.promise p))) m' = _
    rw [Promise.fulfil_other _ hne]
    exact hN n hn

/-- A promise is given what comes of the recovery from a failure. -/
theorem Machine.Extends.catches {env : Environment} (h : m.Extends (m'.withEnv env))
    (hclosed : Closed context m arms e) (he : e.catchable = true) (hflat : m.store.Flat)
    (hflat' : m'.store.Flat) {q : PromiseId} (hnew : ¬m.store.Has q) (hq : m'.store.Has q)
    (hpending : m'.store.state q = .pending [])
    (hrun : Converges (fun n => EvalM.outcome ((engine context n).recover e arms) m) (.ok o mᵣ))
    (hmade : ∀ p, o = .ok (.promise p) → mᵣ.store.Has p) :
    ∃ m₁, Converges (fun n => (do
        let answer ← (engine context n).handle (.recover arms env) (.error e)
        Promise.fulfil (engine context n).deliver q answer) m') (.ok () m₁) ∧
      ForcedAlike context (m.past (m'.withEnv env)) o mᵣ (.ok (.promise q)) m₁ := by
  -- as long as the recovery runs, nothing comes of the new promise
  obtain ⟨m₁, hrun₁, h₁, hflat₁⟩ := h.recovers hclosed hflat' (X := .only q mᵣ.store.fresh.1)
    (fun x p hx => (Shadows.eq_of_only hx).1 ▸ ⟨hnew, hq, hpending⟩) hrun
  have hq₁ : m₁.store.Has q := (evolves_recover hrun₁).has hq
  have h₁' : mᵣ.Embeds (m.past (m'.withEnv env)) (.only q mᵣ.store.fresh.1)
      ((m₁.withEnv m'.rest.env).withEnv m₁.rest.env) := h₁
  obtain ⟨m₂, hrun₂, hforced⟩ := h₁'.answers (hclosed.natural _ (m.past_keeps _))
    mᵣ.store.not_has_fresh ((evolves_recover hrun).flat hflat) hflat₁ hq₁ hmade
  refine ⟨m₂, .bind ?_ hrun₂, hforced⟩
  obtain ⟨N, hN⟩ := hrun₁
  refine ⟨N, fun n hn => ?_⟩
  change (engine context n).handle _ _ m' = _
  rw [Engine.handle_recover he]
  exact congrArg (endWith m'.rest.env) (hN n hn)

end

/-! ## Attempts -/

/-- What the body of an attempt comes to. -/
def Engine.attempted (E : Engine) (body : Expr) : EvalM Outcome :=
  EvalM.outcome (EvalM.inFrame (E.eval body))

/-- What waits for a promise that the body of an attempt has yielded. -/
def Machine.recovery (m : Machine) (arms : List Arm) : Continuation Handler :=
  .derive m.store.fresh.1 (.recover arms m.rest.env)

/-- A promise is given an outcome, and what has waited for it before `k` has been run; what waits after
`k` has not. -/
def Reaches (context : Context) (p : PromiseId) (o : Outcome) (k : Continuation Handler)
    (after : List (Continuation Handler)) (m m' : Machine) : Prop :=
  ∃ ks, m.store.state p = .pending (ks ++ k :: after) ∧
    Converges (fun n => Promise.deliverAll (engine context n).deliver ks o
      (m.withStore (m.store.setState p (.ofOutcome o)))) (.ok () m')

/-- A promise is given an outcome, and what has waited for it up to `k` has been run; what waits after
`k` is run next. -/
def Passes (context : Context) (p : PromiseId) (o : Outcome) (after : List (Continuation Handler))
    (m m' : Machine) : Prop :=
  ∀ m₁, Converges (fun n => Promise.deliverAll (engine context n).deliver after o m') (.ok () m₁) →
    Converges (fun n => Promise.fulfil (engine context n).deliver p o m) (.ok () m₁)

namespace Engine

variable {E : Engine} {body : Expr} {arms : List Arm} {m m₁ : Machine} {e : Error} {o : Outcome}
  {p : PromiseId}

theorem evalAttempt_of_caught (h : E.attempted body m = .ok (.error e) m₁) (he : e.catchable = true) :
    E.evalAttempt body arms m = E.recover e arms m₁ := by
  refine (EvalM.bind_of_ok h).trans ?_
  simp only [he, if_true]

theorem evalAttempt_of_uncaught (h : E.attempted body m = .ok (.error e) m₁)
    (he : e.catchable = false) : E.evalAttempt body arms m = .error (.error e) m₁ := by
  refine (EvalM.bind_of_ok h).trans ?_
  simp only [he, Bool.false_eq_true, if_false]
  rfl

theorem outcome_evalAttempt_of_caught (h : E.attempted body m = .ok (.error e) m₁)
    (he : e.catchable = true) :
    EvalM.outcome (E.evalAttempt body arms) m = EvalM.outcome (E.recover e arms) m₁ := by
  rw [EvalM.outcome, EvalM.outcome, evalAttempt_of_caught h he]

theorem outcome_evalAttempt_of_passed (h : E.attempted body m = .ok o m₁) (ho : Concrete o)
    (hpasses : ∀ e, o = .error e → e.catchable = false) :
    EvalM.outcome (E.evalAttempt body arms) m = .ok o m₁ := by
  cases o with
  | error e =>
    rw [EvalM.outcome, evalAttempt_of_uncaught h (hpasses e rfl)]
  | ok v =>
    refine EvalM.outcome_of_ok ((EvalM.bind_of_ok h).trans ?_)
    cases v with
    | promise p => exact absurd rfl (ho p)
    | _ => rfl

/-- If the body yields a promise, the attempt yields one that is derived from it. -/
theorem outcome_evalAttempt_of_promise {q : PromiseId} {m₂ : Machine}
    (h : E.attempted body m = .ok (.ok (.promise p)) m₁)
    (hderive : Promise.derive E.deliver p (.recover arms m₁.rest.env) m₁ = .ok q m₂) :
    EvalM.outcome (E.evalAttempt body arms) m = .ok (.ok (.promise q)) m₂ :=
  EvalM.outcome_of_ok ((EvalM.bind_of_ok h).trans (EvalM.bind_of_ok hderive))

theorem outcome_evalAttempt_of_stuck {m₂ : Machine}
    (h : E.attempted body m = .ok (.ok (.promise p)) m₁)
    (hderive : Promise.derive E.deliver p (.recover arms m₁.rest.env) m₁ = .error .outOfFuel m₂) :
    EvalM.outcome (E.evalAttempt body arms) m = .error .outOfFuel m₂ := by
  have hattempt : E.evalAttempt body arms m = .error .outOfFuel m₂ := by
    refine (EvalM.bind_of_ok h).trans ?_
    exact EvalM.bind_of_error (f := fun q => pure (Value.promise q)) hderive
  rw [EvalM.outcome, hattempt]

end Engine

theorem Converges.succ {β : Type} {x y : Nat → β} {b : β} (h : Converges x b)
    (hxy : ∀ n, y (n + 1) = x n) : Converges y b := by
  obtain ⟨N, hN⟩ := h
  refine ⟨N + 1, fun n hn => ?_⟩
  obtain ⟨n, rfl⟩ : ∃ k, n = k + 1 := ⟨n - 1, by omega⟩
  exact (hxy n).trans (hN n (by omega))

section

variable {context : Context} {m m₁ m₂ : Machine} {body : Expr} {arms : List Arm} {e : Error}
  {o : Outcome} {p : PromiseId} {k : Continuation Handler}

theorem Promise.deliverAll_append (d : Continuation Handler → Outcome → EvalM Unit)
    (ks ks' : List (Continuation Handler)) (o : Outcome) :
    deliverAll d (ks ++ ks') o = (deliverAll d ks o >>= fun _ => deliverAll d ks' o) := by
  induction ks with
  | nil => simp only [List.nil_append, deliverAll, pure_bind]
  | cons k ks ih => simp only [List.cons_append, deliverAll, ih, bind_assoc]

/-- When a promise is given an outcome, what waits for it is run in order. -/
theorem Reaches.goes_on {after : List (Continuation Handler)} (h : Reaches context p o k after m m₁)
    (ho : Concrete o) {r : EStateM.Result Abort Machine Unit}
    (hrest : Converges (fun n => Promise.deliverAll (engine context n).deliver (k :: after) o m₁) r) :
    Converges (fun n => Promise.fulfil (engine context n).deliver p o m) r := by
  obtain ⟨ks, hks, hreaches⟩ := h
  obtain ⟨N, hN⟩ := hreaches.bind (f := fun n _ =>
    Promise.deliverAll (engine context n).deliver (k :: after) o) hrest
  refine ⟨N, fun n hn => ?_⟩
  change Promise.fulfil (engine context n).deliver p o m = _
  rw [Promise.fulfil_concrete _ ho, Promise.settle_apply, Store.settle_pending hks]
  dsimp only
  rw [Promise.deliverAll_append]
  exact hN n hn

theorem Reaches.passes {after : List (Continuation Handler)} (h : Reaches context p o k after m m₁)
    (ho : Concrete o) (hrun : Converges (fun n => (engine context n).deliver k o m₁) (.ok () m₂)) :
    Passes context p o after m m₂ := fun _ hafter =>
  h.goes_on ho (hrun.bind (f := fun n _ => Promise.deliverAll (engine context n).deliver after o) hafter)

/-- If the body yields a promise that is pending, the recovery waits for it, and nothing waits for the
promise that the attempt yields. -/
theorem attempt_waits {ks : List (Continuation Handler)}
    (h : Converges (fun n => (engine context n).attempted body m) (.ok (.ok (.promise p)) m₁))
    (hp : m₁.store.Has p) (hks : m₁.store.state p = .pending ks) :
    ∃ m₂, Converges (fun n => EvalM.outcome ((engine context n).evalAttempt body arms) m)
        (.ok (.ok (.promise m₁.store.fresh.1)) m₂) ∧
      m₂.store.state p = .pending (ks ++ [m₁.recovery arms]) ∧ m₂.store.Has m₁.store.fresh.1 ∧
      m₂.store.state m₁.store.fresh.1 = .pending [] := by
  obtain ⟨N, hN⟩ := h
  let s := m₁.store.fresh.2.setState p (.pending (ks ++ [m₁.recovery arms]))
  have hks' : m₁.store.fresh.2.state p = .pending ks := (Store.state_fresh ..).trans hks
  have hp' : m₁.store.fresh.2.Has p := Store.has_fresh.2 (.inl hp)
  have hne : m₁.store.fresh.1 ≠ p := fun he => m₁.store.not_has_fresh (he ▸ hp)
  refine ⟨m₁.withStore s, ⟨N, fun n hn => ?_⟩, Store.state_setState_self hp',
    Store.has_setState.2 (Store.has_fresh.2 (.inr rfl)),
    (Store.state_setState_ne hne).trans m₁.store.state_made⟩
  refine Engine.outcome_evalAttempt_of_promise (hN n hn) ?_
  have hregister : Promise.onComplete (engine context n).deliver p (m₁.recovery arms)
      (m₁.withStore m₁.store.fresh.2) = .ok () (m₁.withStore s) := by
    rw [Promise.onComplete_apply, Machine.withStore, Store.register_pending hks']
    rfl
  exact EvalM.bind_of_ok hregister

/-- The recovery from a failure without a text is never done. -/
theorem recovery_stuck {env : Environment} (he : e.catchable = true)
    (htriple : (m.withEnv env).triple? e = none) (q : PromiseId) (n : Nat) :
    (do
      let answer ← (engine context n).handle (.recover arms env) (.error e)
      Promise.fulfil (engine context n).deliver q answer) m = .error .outOfFuel m := by
  have hhandle := Engine.handle_recover he (engine context n) arms env m
  rw [Engine.outcome_recover_of_none htriple] at hhandle
  exact EvalM.bind_of_error hhandle

/-- If the body yields a promise that is settled, what comes of its outcome is given to the promise that
the attempt yields. -/
theorem attempt_goes_on
    (h : Converges (fun n => (engine context n).attempted body m) (.ok (.ok (.promise p)) m₁))
    (hp : m₁.store.outcome? p = some o)
    (hrun : Converges (fun n => (do
      let answer ← (engine context n).handle (.recover arms m₁.rest.env) o
      Promise.fulfil (engine context n).deliver m₁.store.fresh.1 answer)
        (m₁.withStore m₁.store.fresh.2)) (.ok () m₂)) :
    Converges (fun n => EvalM.outcome ((engine context n).evalAttempt body arms) m)
      (.ok (.ok (.promise m₁.store.fresh.1)) m₂) := by
  obtain ⟨N, hN⟩ := h
  obtain ⟨N', hN'⟩ := hrun
  refine ⟨max N (N' + 1), fun n hn => ?_⟩
  obtain ⟨n, rfl⟩ : ∃ l, n = l + 1 := ⟨n - 1, by omega⟩
  refine Engine.outcome_evalAttempt_of_promise (hN _ (by omega)) ?_
  rw [Promise.derive_settled hp, ← bind_assoc]
  exact EvalM.bind_of_ok (hN' n (by omega))

end

/-! ## Three ways to fail -/

/-- Up to the names of what the machine `m` does not have, two outcomes come to the same. -/
def SameOutcome (context : Context) (m : Machine) (o : Outcome) (m₁ : Machine) (o' : Outcome)
    (m₁' : Machine) : Prop :=
  ∃ r : Renaming, r.Keeps m ∧ ForcedAlike context r o m₁ o' m₁'

/-- An attempt has yielded a new promise, because its body has yielded one that is pending. The recovery
waits for that, and nothing waits for the new one. -/
structure AttemptWaits (context : Context) (body : Expr) (arms : List Arm) (p : PromiseId)
    (m m₁ m₂ : Machine) : Prop where
  yields : Converges (fun n => EvalM.outcome ((engine context n).evalAttempt body arms) m)
    (.ok (.ok (.promise m₁.store.fresh.1)) m₂)
  waits : ∃ ks, m₂.store.state p = .pending (ks ++ [m₁.recovery arms])
  made : m₂.store.Has m₁.store.fresh.1
  unwatched : m₂.store.state m₁.store.fresh.1 = .pending []

/-- The recovery from an error comes to an outcome in a machine that has what there is to begin with.
However the body of an attempt fails with that error, the attempt comes to the same in a machine that
has more. -/
structure RecoversAlike (context : Context) (m : Machine) (arms : List Arm) (e : Error) (triple : Value)
    (o : Outcome) (mᵣ : Machine) : Prop where
  /-- The same triple is matched in the same scope. -/
  triple : ∀ n m', m.Extends m' → m'.rest.env = m.rest.env ∧
    (engine context n).recover e arms m' = (engine context n).select triple arms (.rethrow e) m'
  /-- The body fails. -/
  now : ∀ body m₀ m₁, Converges (fun n => (engine context n).attempted body m₀) (.ok (.error e) m₁) →
    m.Extends m₁ → m₁.store.Flat →
    ∃ o' m₂, Converges (fun n => EvalM.outcome ((engine context n).evalAttempt body arms) m₀)
        (.ok o' m₂) ∧ SameOutcome context m o mᵣ o' m₂
  /-- The body yields a promise that has failed. -/
  failed : ∀ body p m₀ m₁,
    Converges (fun n => (engine context n).attempted body m₀) (.ok (.ok (.promise p)) m₁) →
    m₁.store.outcome? p = some (.error e) → m.Extends m₁ → m₁.store.Flat →
    ∃ m₂, Converges (fun n => EvalM.outcome ((engine context n).evalAttempt body arms) m₀)
        (.ok (.ok (.promise m₁.store.fresh.1)) m₂) ∧
      SameOutcome context m o mᵣ (.ok (.promise m₁.store.fresh.1)) m₂
  /-- The body yields a promise that fails later on. -/
  later : ∀ body p m₀ m₁,
    Converges (fun n => (engine context n).attempted body m₀) (.ok (.ok (.promise p)) m₁) →
    m₁.store.Has p → m₁.store.outcome? p = none →
    ∃ m₂, AttemptWaits context body arms p m₀ m₁ m₂ ∧
      ∀ after m₃ m₄, Reaches context p (.error e) (m₁.recovery arms) after m₃ m₄ →
        m.Extends (m₄.withEnv m₁.rest.env) → m₄.store.Flat → ¬m.store.Has m₁.store.fresh.1 →
        m₄.store.Has m₁.store.fresh.1 → m₄.store.state m₁.store.fresh.1 = .pending [] →
        ∃ m₅, Passes context p (.error e) after m₃ m₅ ∧
          SameOutcome context m o mᵣ (.ok (.promise m₁.store.fresh.1)) m₅

/-- There is no text of an error. However the body of an attempt fails with it, no arm is tried, and what
asks for the text is not done with any fuel. -/
structure StuckAlike (context : Context) (m : Machine) (arms : List Arm) (e : Error) : Prop where
  /-- The body fails. -/
  now : ∀ body m₀ m₁, Converges (fun n => (engine context n).attempted body m₀) (.ok (.error e) m₁) →
    m.Extends m₁ →
    Converges (fun n => EvalM.outcome ((engine context n).evalAttempt body arms) m₀)
      (.error .outOfFuel m₁)
  /-- The body yields a promise that has failed. -/
  failed : ∀ body p m₀ m₁,
    Converges (fun n => (engine context n).attempted body m₀) (.ok (.ok (.promise p)) m₁) →
    m₁.store.outcome? p = some (.error e) → m.Extends m₁ →
    Converges (fun n => EvalM.outcome ((engine context n).evalAttempt body arms) m₀)
      (.error .outOfFuel (m₁.withStore m₁.store.fresh.2))
  /-- The body yields a promise that fails later on. -/
  later : ∀ body p m₀ m₁,
    Converges (fun n => (engine context n).attempted body m₀) (.ok (.ok (.promise p)) m₁) →
    m₁.store.Has p → m₁.store.outcome? p = none →
    ∃ m₂, AttemptWaits context body arms p m₀ m₁ m₂ ∧
      ∀ after m₃ m₄, Reaches context p (.error e) (m₁.recovery arms) after m₃ m₄ →
        m.Extends (m₄.withEnv m₁.rest.env) →
        Converges (fun n => Promise.fulfil (engine context n).deliver p (.error e) m₃)
          (.error .outOfFuel m₄)

/-- An attempt passes an outcome on as it is, without trying an arm or doing anything else. -/
structure PassesOn (context : Context) (arms : List Arm) (o : Outcome) : Prop where
  /-- The body comes to it. -/
  now : ∀ body m₀ m₁, Converges (fun n => (engine context n).attempted body m₀) (.ok o m₁) →
    Converges (fun n => EvalM.outcome ((engine context n).evalAttempt body arms) m₀) (.ok o m₁)
  /-- The body yields a promise that has come to it. -/
  settled : ∀ body p m₀ m₁,
    Converges (fun n => (engine context n).attempted body m₀) (.ok (.ok (.promise p)) m₁) →
    m₁.store.outcome? p = some o →
    Converges (fun n => EvalM.outcome ((engine context n).evalAttempt body arms) m₀)
      (.ok (.ok (.promise m₁.store.fresh.1))
        (m₁.withStore (m₁.store.fresh.2.setState m₁.store.fresh.1 (.ofOutcome o))))
  /-- The body yields a promise that comes to it later on. -/
  later : ∀ body p m₀ m₁,
    Converges (fun n => (engine context n).attempted body m₀) (.ok (.ok (.promise p)) m₁) →
    m₁.store.Has p → m₁.store.outcome? p = none →
    ∃ m₂, AttemptWaits context body arms p m₀ m₁ m₂ ∧
      ∀ after m₃ m₄, Reaches context p o (m₁.recovery arms) after m₃ m₄ →
        m₄.store.state m₁.store.fresh.1 = .pending [] →
        Passes context p o after m₃
          (m₄.withStore (m₄.store.setState m₁.store.fresh.1 (.ofOutcome o)))

section

variable {context : Context} {m mᵣ m₁ : Machine} {arms : List Arm} {body : Expr} {p : PromiseId}
  {e : Error} {o : Outcome}

theorem Error.catchable_iff {e : Error} : e.catchable = true ↔ e.root ≠ .interrupted := by
  unfold catchable
  split
  · rename_i h
    simp [h]
  · rename_i h
    simpa using h

theorem Machine.Extends.fresh (h : m.Extends m₁) : m.Extends (m₁.withStore m₁.store.fresh.2) :=
  { h with
    state := fun p hp => (Store.state_fresh ..).trans (h.state p hp)
    promises := Nat.le_trans h.promises (by simp [Machine.withStore, Store.fresh]) }

theorem attemptWaits (m : Machine)
    (h : Converges (fun n => (engine context n).attempted body m) (.ok (.ok (.promise p)) m₁))
    (hp : m₁.store.Has p) (hnone : m₁.store.outcome? p = none) :
    ∃ m₂, AttemptWaits context body arms p m m₁ m₂ := by
  rcases (m₁.store.state p).pending_or_ofOutcome with ⟨ks, hks⟩ | ⟨o, ho⟩
  · obtain ⟨m₂, hyields, hwaits, hmade, hunwatched⟩ := attempt_waits h hp hks
    exact ⟨m₂, hyields, ⟨ks, hwaits⟩, hmade, hunwatched⟩
  · cases hnone.symm.trans (Store.outcome?_of_state ho)

theorem recoversAlike (he : e.root ≠ .interrupted) (hflat : m.store.Flat)
    (hclosed : Closed context m arms e) {triple : Value} (htriple : m.triple? e = some triple)
    (hrun : Converges (fun n =>
      EvalM.outcome ((engine context n).select triple arms (.rethrow e)) m) (.ok o mᵣ))
    (hmade : ∀ p, o = .ok (.promise p) → mᵣ.store.Has p) :
    RecoversAlike context m arms e triple o mᵣ := by
  have he := Error.catchable_iff.2 he
  simp only [← Engine.outcome_recover htriple] at hrun
  refine ⟨fun n m' h => ⟨h.env, ?_⟩, fun body m₀ m₁ hbody h hflat₁ => ?_,
    fun body p m₀ m₁ hbody hp h hflat₁ => ?_, fun body p m₀ m₁ hbody hp hnone => ?_⟩
  · exact Engine.recover_eq ((h.triple? hclosed).trans htriple) _ arms
  · obtain ⟨m₂, ⟨N, hN⟩, h₂, hflat₂⟩ := h.recovers hclosed hflat₁ (X := fun _ => none) nofun hrun
    obtain ⟨N', hN'⟩ := hbody
    have hnatural := hclosed.natural _ (m.past_keeps m₁)
    have h₂' : mᵣ.Embeds (m.past m₁) (fun _ => none) (m₂.withEnv m₂.rest.env) := h₂
    refine ⟨o.rename (m.past m₁), m₂, ⟨max N N', fun n hn => ?_⟩, m.past m₁, m.past_keeps m₁,
      .of_embeds hnatural h₂' hflat₂⟩
    exact (Engine.outcome_evalAttempt_of_caught (hN' n (by omega)) he).trans (hN n (by omega))
  · have hnew : ¬m.store.Has m₁.store.fresh.1 := Nat.not_lt.2 h.promises
    have hflat₁' : m₁.store.fresh.2.Flat := (Change.made m₁).flat hflat₁
    have h' : m.Extends ((m₁.withStore m₁.store.fresh.2).withEnv m₁.rest.env) := h.fresh
    obtain ⟨m₂, hcaught, hforced⟩ := h'.catches hclosed he hflat hflat₁' hnew
      (Store.has_fresh.2 (.inr rfl)) m₁.store.state_made hrun hmade
    exact ⟨m₂, attempt_goes_on hbody hp hcaught, _, m.past_keeps _, hforced⟩
  · obtain ⟨m₂, hwaits⟩ := attemptWaits m₀ hbody hp hnone
    refine ⟨m₂, hwaits, fun after m₃ m₄ hreaches h hflat₄ hnew hq hpending => ?_⟩
    obtain ⟨m₅, hcaught, hforced⟩ := h.catches hclosed he hflat hflat₄ hnew hq hpending hrun hmade
    refine ⟨m₅, hreaches.passes (concrete_error e) (hcaught.succ fun n => ?_), _, m.past_keeps _,
      hforced⟩
    rfl

theorem stuckAlike (he : e.root ≠ .interrupted) (hclosed : Closed context m arms e)
    (htriple : m.triple? e = none) : StuckAlike context m arms e := by
  have he := Error.catchable_iff.2 he
  refine ⟨fun body m₀ m₁ ⟨N, hN⟩ h => ⟨N, fun n hn => ?_⟩,
    fun body p m₀ m₁ ⟨N, hN⟩ hp h => ⟨N + 1, fun n hn => ?_⟩, fun body p m₀ m₁ hbody hp hnone => ?_⟩
  · refine (Engine.outcome_evalAttempt_of_caught (hN n hn) he).trans ?_
    exact Engine.outcome_recover_of_none ((h.triple? hclosed).trans htriple) _ arms
  · obtain ⟨n, rfl⟩ : ∃ l, n = l + 1 := ⟨n - 1, by omega⟩
    refine Engine.outcome_evalAttempt_of_stuck (hN _ (by omega)) ?_
    rw [Promise.derive_settled hp, ← bind_assoc]
    have h' : m.Extends ((m₁.withStore m₁.store.fresh.2).withEnv m₁.rest.env) := h.fresh
    exact EvalM.bind_of_error (recovery_stuck he ((h'.triple? hclosed).trans htriple) _ n)
  · obtain ⟨m₂, hwaits⟩ := attemptWaits m₀ hbody hp hnone
    refine ⟨m₂, hwaits, fun after m₃ m₄ hreaches h => hreaches.goes_on (concrete_error e) ?_⟩
    refine Converges.succ ⟨0, fun n _ => ?_⟩ fun n => rfl
    exact EvalM.bind_of_error (recovery_stuck he ((h.triple? hclosed).trans htriple) _ n)

theorem passesOn (context : Context) (arms : List Arm) (ho : Concrete o)
    (hpasses : ∀ e, o = .error e → e.root = .interrupted) : PassesOn context arms o := by
  have hpasses : ∀ e, o = .error e → e.catchable = false := fun e he => by
    have := mt Error.catchable_iff.1 (not_not_intro (hpasses e he))
    simpa using this
  have hhandle : ∀ (E : Engine) env, E.handle (.recover arms env) o = pure o := by
    intro E env
    cases o with
    | ok v => rfl
    | error e =>
      simp only [Engine.handle, hpasses e rfl, Bool.false_eq_true, if_false]
  have hquiet : ∀ (n : Nat) (env : Environment) (m : Machine) (q : PromiseId),
      m.store.state q = .pending [] → (do
        let answer ← (engine context n).handle (.recover arms env) o
        Promise.fulfil (engine context n).deliver q answer) m =
      .ok () (m.withStore (m.store.setState q (.ofOutcome o))) := by
    intro n env m q hq
    rw [hhandle, pure_bind, Promise.fulfil_concrete _ ho, Promise.settle_quiet _ hq]
  refine ⟨fun body m₀ m₁ hbody => ?_, fun body p m₀ m₁ hbody hp => ?_,
    fun body p m₀ m₁ hbody hp hnone => ?_⟩
  · obtain ⟨N, hN⟩ := hbody
    exact ⟨N, fun n hn => Engine.outcome_evalAttempt_of_passed (hN n hn) ho hpasses⟩
  · exact attempt_goes_on hbody hp ⟨0, fun n _ => hquiet n _ _ _ m₁.store.state_made⟩
  · obtain ⟨m₂, hwaits⟩ := attemptWaits m₀ hbody hp hnone
    refine ⟨m₂, hwaits, fun after m₃ m₄ hreaches hpending => hreaches.passes ho ?_⟩
    exact Converges.succ ⟨0, fun n _ => hquiet n _ m₄ _ hpending⟩ fun n => rfl

end

/-- An attempt treats failures alike, whether its body fails, yields a promise that has failed, or yields
one that fails later on. If the error can be caught and there is a text of it, recovery from it comes to
its end, and what it comes to is what the attempt comes to in all three cases, up to the names of what
is made on the way. If no arm fits, however often the selection has been left to a promise, that is the
error itself. An error that is about a promise inside of itself has no text, and in all three cases
whoever asks for it is never answered. An interruption is passed on in all three cases without an arm
being tried, and so is any value. -/
theorem attempts_alike (context : Context) {m : Machine} {arms : List Arm} {e : Error}
    (hflat : m.store.Flat) (hclosed : Closed context m arms e) :
    (e.root ≠ .interrupted → ∀ triple, m.triple? e = some triple →
      Finishes context
        (fun n => EvalM.outcome ((engine context n).select triple arms (.rethrow e))) m ∧
      (∀ o mᵣ, Converges (fun n =>
          EvalM.outcome ((engine context n).select triple arms (.rethrow e)) m) (.ok o mᵣ) →
        (∀ p, o = .ok (.promise p) → mᵣ.store.Has p) → RecoversAlike context m arms e triple o mᵣ) ∧
      ∀ r : Selection.Ran, Selection.Course context triple (.rethrow e) arms r → r.left = none →
        Selection.Position.Steps (.start arms) r.acts .unmatched →
        ∃ m', r.result = .error .outOfFuel m' ∨ r.result = .error (.error e) m') ∧
    (e.root ≠ .interrupted → m.triple? e = none → StuckAlike context m arms e) ∧
    (e.root = .interrupted → PassesOn context arms (.error e)) ∧
    ∀ v : Value, v.isPromise = false → PassesOn context arms (.ok v) := by
  refine ⟨fun he triple htriple =>
      ⟨?_, fun o mᵣ => recoversAlike he hflat hclosed htriple, fun r hcourse hleft hsteps => ?_⟩,
    fun he => stuckAlike he hclosed, fun he => ?_, fun v hv => ?_⟩
  · exact (finishes_recover hflat e arms).congr fun n => (Engine.outcome_recover htriple _ arms).symm
  · obtain ⟨m', hend | ⟨E, hend⟩⟩ := hcourse.finds_nothing hleft hsteps
    · exact ⟨m', .inl hend⟩
    · exact ⟨m', .inr hend⟩
  · refine passesOn context arms (concrete_error e) fun e' he' => ?_
    obtain rfl := Except.error.inj he'
    exact he
  · refine passesOn context arms (fun p hp => ?_) nofun
    obtain rfl := Except.ok.inj hp
    cases hv

/-! ### An arm that answers with the tag and with a promise that is pending -/

namespace Attempt

/-- A call is active, and `later` is a promise that has been given nothing yet. -/
def site : Machine :=
  ⟨⟨#[.pending []], #[]⟩, ⟨⟨[⟨"later", .promise ⟨0⟩, false⟩], [], [⟨"main", "run", none, none⟩], none⟩,
    #[], [], fun _ => true, false, [], []⟩⟩

def settings : Context := ⟨10, .queued, fun _ _ => ⟨.value .unit, [], false⟩⟩

def arms : List Arm :=
  [.mk (.tuple [.bind "tag", .wildcard, .wildcard])
    [(none, .tuple [.identifier "tag", .identifier "later"])]]

/-- What the arm is matched against. -/
def caught : Value :=
  (Error.raised "oops" "no luck" []).toTriple site.directory.labels site.rest.env.calls

theorem state_site : ∀ p, site.store.state p = .pending []
  | ⟨0⟩ => rfl
  | ⟨_ + 1⟩ => rfl

theorem closed_site : Closed settings site arms (.raised "oops" "no luck" []) where
  fixes r hr :=
    { settled := fun p o hp => by
        rw [Store.outcome?, state_site] at hp
        cases hp
      waiting := fun p ks k hp hk => by
        rw [state_site] at hp
        cases hp
        cases hk
      gathers := nofun
      functions := nofun
      env := by
        have hlater : r.promise ⟨0⟩ = ⟨0⟩ := hr.promise _ Nat.zero_lt_one
        simp only [site, Environment.rename, List.map_cons, List.map_nil, Binding.rename, Value.rename,
          hlater]
      modules := rfl
      held := fun _ => rfl
      queue := rfl }
  arms r _ := rfl
  error r _ := rfl
  natural r _ := ⟨fun _ _ => rfl, nofun⟩

end Attempt

open Attempt in
theorem attempts_alike_caught :
    site.store.Flat ∧ Closed settings site arms (.raised "oops" "no luck" []) ∧
      RecoversAlike settings site arms (.raised "oops" "no luck" []) caught
        (.ok (.tuple [.symbol "oops", .promise ⟨0⟩])) site := by
  have hflat : site.store.Flat := fun p o hp =>
    absurd ((state_site p).symm.trans hp).symm (PromiseState.ofOutcome_ne_pending o [])
  refine ⟨hflat, closed_site, ?_⟩
  refine ((attempts_alike settings hflat closed_site).1 nofun caught rfl).2.1 _ _ ⟨6, fun n hn => ?_⟩
    nofun
  obtain ⟨n, rfl⟩ : ∃ k, n = k + 6 := ⟨n - 6, by omega⟩
  rfl

end Deferral
