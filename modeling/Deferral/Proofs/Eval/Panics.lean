import Deferral.Proofs.Eval.Lifting

/-!
# What a panic leaves behind

A task is called behind a barrier: if its function panics, its promise fails. What settling that promise
sets off is not behind it. So a task's own promise never depends on a panic (`runTask_landed`), while a
panic in one of the continuations that wait for a promise is the end of all that come after it
(`Promise.settle_panics`), and of the promises that they were to settle.

A promise that was derived is stranded in no other way. As long as turns come to their end, a promise
that has been derived by some handler has been given what has come of it once its source is settled, and
a gather has its result once its operands are settled.
-/

set_option autoImplicit false

namespace Deferral

/-- The promise is settled, or has adopted one that is still pending. -/
def Store.Landed (s : Store Handler) (t : PromiseId) : Prop :=
  (∃ o, s.outcome? t = some o) ∨ ∃ r ks, s.state r = .pending ks ∧ .adopt t ∈ ks

/-- Unless it is out of fuel, a computation has ended in a machine with this property, with a result or
with a panic. -/
def EndsIn {α : Type} (P : Machine → Prop) : EStateM.Result Abort Machine α → Prop
  | .ok _ m => P m
  | .error (.error _) _ => False
  | .error (.panic _) m => P m
  | .error .outOfFuel _ => True

/-- What a task calls. -/
def Engine.taskCall (E : Engine) (task : Task) : EvalM Value :=
  EvalM.within task.caller (E.callValue (.function task.function) [] none)

section

variable {m : Machine} {t : PromiseId} {o : Outcome}

theorem EndsIn.of_final {α : Type} {P : Machine → Prop} {x : EvalM α} (hx : Unfailing x)
    (h : P (finalWorld (x m))) : EndsIn P (x m) := by
  cases hr : x m with
  | ok a m₁ =>
    rw [hr] at h
    exact h
  | error e m₁ =>
    rw [hr] at h
    cases e with
    | error e => exact absurd hr (hx m e m₁)
    | panic payload => exact h
    | outOfFuel => trivial

theorem EvalM.contained_of_panic {α : Type} {x : EvalM α} {payload : Option String} {m₁ : Machine}
    (h : x m = .error (.panic payload) m₁) :
    contained x m = .ok (.error (.taskFailed (payload.getD "task panicked"))) m₁ := by
  rw [contained, h]

/-! ## Giving an outcome to a promise -/

/-- A promise that is settled stays so, whatever comes of what waits for it. -/
theorem Promise.settle_final (context : Context) (n : Nat) (hhas : m.store.Has t) (o : Outcome) :
    ∃ o', (finalWorld (Promise.settle (engine context n).deliver t o m)).store.outcome? t = some o' ∧
      (m.store.outcome? t = none → o' = o) := by
  have hall : ∀ ks (m₁ : Machine),
      Evolves m₁ (finalWorld (Promise.deliverAll (engine context n).deliver ks o m₁)) := fun ks m₁ =>
    (Conduct.composed.deliverAll (conducted_engine context n).deliver o ks m₁).evolves
  rw [Promise.settle_apply]
  rcases Store.settle_cases t o m.store with ⟨ks, hks, hs⟩ | ⟨o', ho', hs⟩
  · rw [hs]
    exact ⟨o, (hall ks _).outcome? (Store.outcome?_setState_self hhas o), fun _ => rfl⟩
  · rw [hs]
    have hsettled := Store.outcome?_of_state ho'
    exact ⟨o', hsettled, fun hnone => by cases hnone.symm.trans hsettled⟩

theorem Promise.fulfil_landed (context : Context) (n : Nat) (hflat : m.store.Flat)
    (hhas : m.store.Has t) (hmade : ∀ s, o = .ok (.promise s) → m.store.Has s) :
    EndsIn (·.store.Landed t) (Promise.fulfil (engine context n).deliver t o m) := by
  -- the promise is settled before anything is run that has waited for it
  have hsettle : ∀ (n : Nat) {o : Outcome}, Concrete o →
      EndsIn (·.store.Landed t) (Promise.settle (engine context n).deliver t o m) := by
    intro n o ho
    obtain ⟨o', ho', -⟩ := Promise.settle_final context n hhas o
    exact .of_final (Unfailing.composed.settle (Unfailing.deliver context n) t ho) (.inl ⟨o', ho'⟩)
  rcases concrete_or_promise o with ho | ⟨s, rfl⟩
  · rw [Promise.fulfil_concrete _ ho]
    exact hsettle n ho
  · by_cases hs : s = t
    · subst hs
      rw [Promise.fulfil_self]
      exact hsettle n (concrete_error _)
    · rw [Promise.fulfil_other _ hs, Promise.onComplete_apply]
      rcases Store.register_cases s (.adopt t) m.store with ⟨ks, hks, hregister⟩ | ⟨o, ho, hregister⟩
      · rw [hregister]
        have hstate : (m.store.setState s (.pending (ks ++ [.adopt t]))).state s =
            .pending (ks ++ [.adopt t]) := Store.state_setState_self (hmade s rfl)
        exact .inr ⟨s, _, hstate, List.mem_append_right _ (.head _)⟩
      · rw [hregister]
        cases n with
        | zero => trivial
        | succ n =>
          change EndsIn _ (Promise.fulfil (engine context n).deliver t o m)
          rw [Promise.fulfil_concrete _ (hflat s o ho)]
          exact hsettle n (hflat s o ho)

/-- A panic on settling a promise comes from one of the continuations that have waited for it. Those
before it have been run; those after it have not, and are gone. -/
theorem Promise.settle_panics {deliver : Continuation Handler → Outcome → EvalM Unit}
    {payload : Option String} {m' : Machine}
    (h : Promise.settle deliver t o m = .error (.panic payload) m') :
    ∃ before k after m₁, m.store.state t = .pending (before ++ k :: after) ∧
      Promise.deliverAll deliver before o (m.withStore (m.store.setState t (.ofOutcome o))) =
        .ok () m₁ ∧
      deliver k o m₁ = .error (.panic payload) m' := by
  have hall : ∀ (ks : List (Continuation Handler)) (m₀ : Machine),
      Promise.deliverAll deliver ks o m₀ = .error (.panic payload) m' →
      ∃ before k after m₁, ks = before ++ k :: after ∧
        Promise.deliverAll deliver before o m₀ = .ok () m₁ ∧
        deliver k o m₁ = .error (.panic payload) m' := by
    intro ks
    induction ks with
    | nil =>
      intro m₀ h
      cases h
    | cons k ks ih =>
      intro m₀ h
      cases hk : deliver k o m₀ with
      | error e m₁ =>
        have hends : Promise.deliverAll deliver (k :: ks) o m₀ = .error e m₁ :=
          EvalM.bind_of_error hk
        exact ⟨[], k, ks, m₀, rfl, rfl, by rw [hk, ← hends, h]⟩
      | ok u m₁ =>
        have hrest : Promise.deliverAll deliver (k :: ks) o m₀ = Promise.deliverAll deliver ks o m₁ :=
          EvalM.bind_of_ok hk
        obtain ⟨before, k', after, m₂, rfl, hbefore, hpanic⟩ := ih m₁ (hrest.symm.trans h)
        exact ⟨k :: before, k', after, m₂, rfl, (EvalM.bind_of_ok hk).trans hbefore, hpanic⟩
  rw [Promise.settle_apply] at h
  rcases Store.settle_cases t o m.store with ⟨ks, hks, hs⟩ | ⟨o', ho', hs⟩
  · rw [hs] at h
    obtain ⟨before, k, after, m₁, rfl, hbefore, hpanic⟩ := hall ks _ h
    exact ⟨before, k, after, m₁, hks, hbefore, hpanic⟩
  · rw [hs] at h
    cases h

/-! ## Tasks -/

variable (context : Context) (n : Nat) (task : Task)

/-- However the call of a task ends, promises that were there are not settled by it. -/
theorem Engine.taskCall_keeps (hhas : m.store.Has t) {r : EStateM.Result Abort Machine Value}
    (hr : (engine context n).taskCall task m = r) :
    (finalWorld r).store.outcome? t = m.store.outcome? t := by
  have hcall : Parallel (.from m m) m.rest.env.module ((engine context n).taskCall task)
      ((engine context n).taskCall task) :=
    .within (.refl _) ((Session.abreast_engine (.from m m) rfl context n).callValue
      (.function task.function) [] none)
  have hagree := hcall m m (Twin.refl m).alike (.refl _)
  rw [hr] at hagree
  cases hagree with
  | ok a h => exact h.grown.store.outcome?_old hhas
  | error e h => exact h.grown.store.outcome?_old hhas

theorem Engine.evolves_taskCall {r : EStateM.Result Abort Machine Value}
    (hr : (engine context n).taskCall task m = r) : Evolves m (finalWorld r) := by
  have hcall : Conduct (engine context n).context (· = ·) ((engine context n).taskCall task) :=
    .within ((conducted_engine context n).callValue (ρ := (· = ·)) _ _ _) _
  exact hr ▸ (hcall m).evolves

/-- What is left to do for a task when its call has ended. -/
theorem Engine.runTask_of_contained {E : Engine} {m₁ : Machine}
    (h : EvalM.contained (E.taskCall task) m = .ok o m₁) :
    E.runTask task m = Promise.fulfil E.deliver task.target o m₁ :=
  EvalM.bind_of_ok h

theorem runTask_landed (hm : m.Sound) (hhas : m.store.Has task.target)
    (hmade : ∀ s m₁, (engine context n).taskCall task m = .ok (.promise s) m₁ → m₁.store.Has s) :
    EndsIn (·.store.Landed task.target) ((engine context n).runTask task m) := by
  have hlanded : ∀ {o : Outcome} {m₁ : Machine}, Evolves m m₁ →
      EvalM.contained ((engine context n).taskCall task) m = .ok o m₁ →
      (∀ s, o = .ok (.promise s) → m₁.store.Has s) →
      EndsIn (·.store.Landed task.target) ((engine context n).runTask task m) := by
    intro o m₁ he hcontained hmade
    rw [Engine.runTask_of_contained task hcontained]
    exact Promise.fulfil_landed context n (he.flat hm.flat) (he.has hhas) hmade
  cases hr : (engine context n).taskCall task m with
  | ok v m₁ =>
    have hevolves : Evolves m m₁ := Engine.evolves_taskCall context n task hr
    refine hlanded hevolves (EvalM.contained_of_ok hr) fun s hs => ?_
    obtain rfl := Except.ok.inj hs
    exact hmade s m₁ hr
  | error e m₁ =>
    have hevolves : Evolves m m₁ := Engine.evolves_taskCall context n task hr
    cases e with
    | error e =>
      exact hlanded (o := .error e) hevolves (by rw [EvalM.contained, hr]) fun _ hs => by cases hs
    | panic payload =>
      exact hlanded hevolves (EvalM.contained_of_panic hr) fun _ hs => by cases hs
    | outOfFuel =>
      have hcontained : EvalM.contained ((engine context n).taskCall task) m = .error .outOfFuel m₁ := by
        rw [EvalM.contained, hr]
      have hrun : (engine context n).runTask task m = .error .outOfFuel m₁ :=
        EvalM.bind_of_error hcontained
      rw [hrun]
      trivial

/-- If the function of a task panics, then the task's promise fails, whatever comes of that. -/
theorem runTask_panics (hhas : m.store.Has task.target)
    (hpending : m.store.outcome? task.target = none) {payload : Option String} {m₁ : Machine}
    (hr : (engine context n).taskCall task m = .error (.panic payload) m₁) :
    (finalWorld ((engine context n).runTask task m)).store.outcome? task.target =
      some (.error (.taskFailed (payload.getD "task panicked"))) := by
  have hevolves : Evolves m m₁ := Engine.evolves_taskCall context n task hr
  have hkept : m₁.store.outcome? task.target = none :=
    (Engine.taskCall_keeps context n task hhas hr).trans hpending
  rw [Engine.runTask_of_contained task (EvalM.contained_of_panic hr),
    Promise.fulfil_concrete _ (concrete_error _)]
  obtain ⟨o', ho', hsame⟩ := Promise.settle_final context n (hevolves.has hhas)
    (.error (.taskFailed (payload.getD "task panicked")))
  rw [ho', hsame hkept]

end

/-! ## Turns that come to their end -/

section

variable {context : Context} {m m₁ m₂ : Machine} {n fuel : Nat} {turns : List Turn}

theorem Promise.eq_fresh_of_derive {deliver : Continuation Handler → Outcome → EvalM Unit}
    {p q : PromiseId} {h : Handler} (hderive : Promise.derive deliver p h m = .ok q m₁) :
    q = m.store.fresh.1 := by
  rw [Promise.derive, Promise.new_bind] at hderive
  obtain ⟨_, _, -, hpure⟩ := EvalM.ok_of_bind hderive
  cases hpure
  rfl

/-- A promise that has been derived, by whatever handler, has been given the answer of the handler once
its source is settled. -/
theorem Promise.derive_answered (hm : m.Sound) {p q : PromiseId} (hp : m.store.Has p) {h : Handler}
    (hderive : Promise.derive (engine context n).deliver p h m = .ok q m₁)
    (hspare : Turn.Spare (· = q) turns)
    (hturns : Turn.runAll (engine context fuel) turns m₁ = .ok () m₂) {o : Outcome}
    (ho : m₂.store.outcome? p = some o) :
    ∃ before answer after k, Evolves m before ∧
      (engine context k).handle h o before = .ok answer after ∧ Evolves after m₂ ∧
      ((∀ r, answer = .ok (.promise r) → after.store.Has r) →
        m₂.store.outcome? q = m₂.store.look q answer) := by
  obtain rfl := Promise.eq_fresh_of_derive hderive
  let L : Link := ⟨context, m, p, m.store.fresh.1, h, fun _ => True⟩
  let P : Protocol context m.store.fresh.1 :=
    L.protocol (.idle context m.store.fresh.1) fun _ _ => trivial
  have hcounts : P.Counts := Link.counts
  have hstart := Protocol.derives (P := P) hcounts rfl ⟨hm.link hp context h _, trivial⟩ n
  rw [hderive] at hstart
  obtain ⟨d, m₁', -, hinv, twin⟩ := hstart.of_ok
  have hrun := P.runAll hcounts (n := fuel) hinv
    (fun r o' hmem hown => hspare r o' hmem (hown.elim id False.elim)) twin
  rw [hturns] at hrun
  obtain ⟨d₂, -, -, ⟨hinv₂, -⟩, -⟩ := hrun.of_ok
  obtain ⟨-, answer, after, ⟨before, k, hbefore, -, -, hr, hafter⟩, htarget⟩ := hinv₂.answer ho
  exact ⟨before, answer, after, k, hbefore, hr, hafter, htarget⟩

/-- A gather has its result once its operands are settled. -/
theorem Promise.all_answered (hm : m.Sound) {operands : List Value}
    (hany : operands.any Value.isPromise = true)
    (hhas : ∀ p, .promise p ∈ operands → m.store.Has p) (n : Nat) :
    ∃ a m₁, Promise.all (engine context (n + 1)).deliver operands m = .ok a m₁ ∧
      ∀ turns fuel m₂, Turn.Spare (· = a) turns →
        Turn.runAll (engine context fuel) turns m₁ = .ok () m₂ →
        (∀ p, .promise p ∈ operands → ∃ o, m₂.store.outcome? p = some o) →
        ∃ o, m₂.store.outcome? a = some o := by
  obtain ⟨m₁, hall, hinv⟩ := Collection.start_all hm hany hhas
  refine ⟨_, m₁, hall _ (gathers_engine _ context n), fun turns fuel m₂ hspare hturns hsettled => ?_⟩
  let C := Collection.start m operands
  have hcounts : (C.protocol context C.result).Counts := fun _ _ _ h => h.hidden.has
  have hrun := Protocol.runAll (P := C.protocol context C.result) hcounts (n := fuel) (d := 0) hinv
    hspare (.refl m₁)
  rw [hturns] at hrun
  obtain ⟨_, _, -, hinv₂, -⟩ := hrun.of_ok
  rcases Collection.Inv.between hinv₂ with ⟨-, ⟨p, hp, hpending⟩, -⟩ | ⟨values, -, hresult⟩ |
    ⟨p, e, -, -, hresult⟩
  · obtain ⟨o, ho⟩ := hsettled p hp
    cases hpending.symm.trans ho
  · exact ⟨_, hresult⟩
  · exact ⟨_, hresult⟩

end

/-- What a panic leaves behind. First, a task comes to its end, with a panic or without, and its own
promise is then settled or has adopted one that is still pending; if the function of the task panics,
the promise fails with that, whatever continuations do then. Second, if settling a promise ends with a
panic, it is that of a continuation: those registered before it have been run, and those after it have
not been and never are. Third, as long as turns end without a panic, a promise that has been derived by
any handler has been given the answer of the handler once its source is settled, and the promise of a
gather is settled once its operands are. -/
theorem panic_strands_later_continuations (context : Context) {m : Machine} (hm : m.Sound) :
    (∀ task : Task, m.store.Has task.target →
      Finishes context (fun n => (engine context n).runTask task) m ∧
      ∀ n, (∀ s m₁, (engine context n).taskCall task m = .ok (.promise s) m₁ → m₁.store.Has s) →
        EndsIn (·.store.Landed task.target) ((engine context n).runTask task m) ∧
        ∀ payload m₁, (engine context n).taskCall task m = .error (.panic payload) m₁ →
          m.store.outcome? task.target = none →
          (finalWorld ((engine context n).runTask task m)).store.outcome? task.target =
            some (.error (.taskFailed (payload.getD "task panicked")))) ∧
    (∀ n t o payload m', Promise.settle (engine context n).deliver t o m = .error (.panic payload) m' →
      ∃ before k after m₁, m.store.state t = .pending (before ++ k :: after) ∧
        Promise.deliverAll (engine context n).deliver before o
          (m.withStore (m.store.setState t (.ofOutcome o))) = .ok () m₁ ∧
        (engine context n).deliver k o m₁ = .error (.panic payload) m') ∧
    (∀ n p q h m₁, m.store.Has p → Promise.derive (engine context n).deliver p h m = .ok q m₁ →
      ∀ turns fuel m₂ o, Turn.Spare (· = q) turns →
        Turn.runAll (engine context fuel) turns m₁ = .ok () m₂ → m₂.store.outcome? p = some o →
        ∃ before answer after k, Evolves m before ∧
          (engine context k).handle h o before = .ok answer after ∧ Evolves after m₂ ∧
          ((∀ r, answer = .ok (.promise r) → after.store.Has r) →
            m₂.store.outcome? q = m₂.store.look q answer)) ∧
    ∀ operands n, operands.any Value.isPromise = true →
      (∀ p, .promise p ∈ operands → m.store.Has p) →
      ∃ a m₁, Promise.all (engine context (n + 1)).deliver operands m = .ok a m₁ ∧
        ∀ turns fuel m₂, Turn.Spare (· = a) turns →
          Turn.runAll (engine context fuel) turns m₁ = .ok () m₂ →
          (∀ p, .promise p ∈ operands → ∃ o, m₂.store.outcome? p = some o) →
          ∃ o, m₂.store.outcome? a = some o := by
  refine ⟨fun task hhas => ⟨finishes_runTask hm.flat task, fun n hmade => ?_⟩, ?_, ?_, ?_⟩
  · exact ⟨runTask_landed context n task hm hhas hmade,
      fun payload m₁ hr hpending => runTask_panics context n task hhas hpending hr⟩
  · exact fun n t o payload m' => Promise.settle_panics
  · exact fun n p q h m₁ hp hderive turns fuel m₂ o hspare hturns =>
      Promise.derive_answered hm hp hderive hspare hturns
  · exact fun operands n hany hhas => Promise.all_answered hm hany hhas n

/-- A task is in the queue, and an operation waits for its promise that is to panic. -/
def Session.primed : Session :=
  let s := { Session.start .queued 8 false true with
    context := ⟨8, .queued, Session.host⟩, fuel := 8 }
  let s := (s.run (.eval (.spawn (.lambda none [] (.literal (.ofText "boom")))) none)).1
  (s.run (.eval (.call (.identifier "explode") [.literal (.promise ⟨0⟩)] none) none)).1

theorem panic_strands_later_continuations_primed : Session.primed.machine.Sound ∧
    ∃ task m', Session.primed.machine.rest.queue = [task] ∧ task.target = ⟨0⟩ ∧
      Session.primed.engine.runTask task Session.primed.machine = .error (.panic (some "boom")) m' ∧
      m'.store.Landed ⟨0⟩ := by
  have hsound : Session.primed.machine.Sound :=
    (Session.Reachable.run (.run (.settings (.start .queued 8 false true) _ 8) _) _).sound
  obtain ⟨htask, -⟩ := panic_strands_later_continuations Session.primed.context hsound
  obtain ⟨-, hends⟩ := htask ⟨⟨6⟩, Session.primed.environment, ⟨0⟩⟩ (show 0 < 3 by decide)
  obtain ⟨hlanded, -⟩ := hends 8 (fun s m₁ hr => by cases hr)
  exact ⟨hsound, _, _, rfl, rfl, rfl, hlanded⟩

/-- The second of two operations that wait for a task. -/
def exclaimed : Expr := .binary .join (.literal (.promise ⟨0⟩)) (.literal (.ofText "!"))

/-- A task that applies a panicking operation to the promise of another task, and would handle the
failure of that. -/
def prepared : Expr :=
  .spawn (.lambda none [] (.attempt
    (.call (.identifier "explode") [.spawn (.lambda none [] (.literal (.ofText "boom")))] none)
    [.mk (.tuple [.bind "tag", .wildcard, .wildcard]) [(none, .identifier "tag")]]))

/-- A session in which tasks are run at once. -/
def Session.hasty : Session :=
  { Session.start .immediate 8 false true with context := ⟨8, .immediate, Session.host⟩, fuel := 7 }

/-- Panics leave promises pending whose sources are settled. When the task of the first session has
ended, its promise is settled, but the panic of the first operation is the end of the second one: all
that waits is its result for its operands, and nothing is left to bring them. In the second session the
inner task and the operands of the operation are settled, the promise for its result is not and nothing
waits any more, and it is the outer task that has failed. -/
theorem panic_strands_derived :
    (let waiting := (Session.primed.run (.eval exclaimed none)).1
      let ended := waiting.run (.runTasks 1 false)
      Session.primed.engine.eval exclaimed Session.primed.machine =
        .ok (.promise ⟨4⟩) waiting.machine ∧
      ended.2 = .panicked (some "boom") ∧
      ended.1.machine.store.outcome? ⟨0⟩ = some (.ok (.ofText "boom")) ∧
      ended.1.machine.store.outcome? ⟨4⟩ = none ∧
      ended.1.machine.store.waits = {(⟨3⟩, .derive ⟨4⟩ (.compute (.binary .join)))} ∧
      ended.1.machine.rest.queue = []) ∧
    let store := (Session.hasty.run (.force prepared none)).1.machine.store
    [⟨0⟩, ⟨1⟩, ⟨2⟩, ⟨3⟩].map (fun p => (store.outcome? p).map Except.toBool) =
      [some false, some true, some true, none] ∧
    store.promises.toList.all (·.waiting.isEmpty) = true := by
  refine ⟨⟨rfl, rfl, rfl, rfl, rfl, rfl⟩, ?_⟩
  decide +kernel

end Deferral
