import Deferral.Proofs.Session.Alongside

/-!
# What holds of all that is kept

Environments and errors are copied: into functions, into continuations that wait for promises, into
promises that have failed, into tasks that wait to be run. To show that none of them is ever of a
certain kind is to show an invariant about all that is kept somewhere (`Machine.Upholds`). It is a bond
between a machine and itself, if evaluation does not lead out of what is allowed (`Terms.Closed`).

The two engines in tandem are the engine and one with a wrapper around each evaluation, wherever it
takes place, that gives up where it meets something of the kind. By `shadow_upholding` that makes no
difference, nor does it to a host (`Session.inStep_upholding`).
-/

set_option autoImplicit false

namespace Deferral

/-- Evaluation does not lead out of these terms, whatever code is run. -/
structure Terms.Closed (K : Terms) : Prop where
  code : ∀ e, K.Code e
  spawns : K.Spawns
  openFrame : ∀ {env}, K.Scope env → K.Scope env.openFrame
  closeFrame : ∀ {env}, K.Scope env → K.Scope env.closeFrame
  grow : ∀ {env} (more : List Binding), K.Scope env → K.Scope (env.grow more)
  setModule : ∀ {env} (name : Option ModuleName), K.Scope env → K.Scope { env with module := name }
  plain : ∀ {e}, e.isPlain = true → K.Failure e
  raised : ∀ {env} (tag message : String), K.Scope env → K.Failure (.raised tag message env.calls)
  withStack : ∀ {env e}, K.Scope env → K.Failure e → K.Failure (e.withStack env.calls)

/-- All environments and errors that are kept in a machine and in flight are among the terms. -/
structure Machine.Upholds (K : Terms) (F : InFlight) (m : Machine) : Prop where
  running : K.Scope m.rest.env
  waiting : ∀ w ∈ m.store.waits + F, w.2.Fine K
  failed : ∀ p e, m.store.outcome? p = some (.error e) → K.Failure e
  queued : ∀ task ∈ m.rest.queue, K.Scope task.caller

/-- The same machine on both sides, in which all that is kept is among the terms. -/
def Bond.upholding (K : Terms) : Bond where
  toTerms := K
  Paired F m m' := m = m' ∧ m.Upholds K F
  Given o := ∀ e, o = .error e → K.Failure e
  Breach _ := False

section

variable {K : Terms} {F : InFlight} {m : Machine}

namespace Machine.Upholds

variable (h : m.Upholds K F)
include h

/-- Environments, promises and tasks are all that counts. -/
theorem of_same {m' : Machine} (henv : m'.rest.env = m.rest.env) (hstore : m'.store = m.store)
    (hqueue : m'.rest.queue = m.rest.queue) : m'.Upholds K F := by
  refine ⟨?_, ?_, ?_, ?_⟩
  · rw [henv]
    exact h.running
  · rw [hstore]
    exact h.waiting
  · rw [hstore]
    exact h.failed
  · rw [hqueue]
    exact h.queued

/-- Another store, in which no more waits, but what is fine. -/
theorem of_store {s : Store Handler} {G : InFlight}
    (hwaits : ∀ w ∈ s.waits + G, w ∈ m.store.waits + F ∨ w.2.Fine K)
    (houtcome : ∀ p o, s.outcome? p = some o →
      m.store.outcome? p = some o ∨ (Bond.upholding K).Given o) :
    (m.withStore s).Upholds K G := by
  refine ⟨h.running, fun w hw => ?_, fun p e hp => ?_, h.queued⟩
  · rcases hwaits w hw with hw | hw
    · exact h.waiting w hw
    · exact hw
  · rcases houtcome p (.error e) hp with hp | hgiven
    · exact h.failed p e hp
    · exact hgiven e rfl

end Machine.Upholds

/-! ## The bond -/

variable (hK : K.Closed)
include hK

theorem Bond.lawful_upholding : (upholding K).Lawful where
  same := by
    rintro F m m' ⟨rfl, -⟩
    rfl
  scope := by
    rintro F m m' ⟨rfl, h⟩
    exact h.running
  callable := fun _ _ _ body _ => hK.code body
  outcome := by
    rintro F m m' p o ⟨rfl, h⟩ ho e rfl
    exact h.failed p e ho
  withEnv := by
    rintro F m m' env ⟨rfl, h⟩ henv
    exact ⟨rfl, henv, h.waiting, h.failed, h.queued⟩
  withFunction := by
    rintro F m m' f ⟨rfl, h⟩ -
    exact ⟨rfl, h.of_same rfl rfl rfl⟩
  withModules := by
    rintro F m m' modules ⟨rfl, h⟩
    exact ⟨rfl, h.of_same rfl rfl rfl⟩
  interrupt := by
    rintro F m m' ⟨rfl, h⟩
    exact ⟨rfl, h.of_same rfl rfl rfl⟩
  addLog := by
    rintro F m m' entries ⟨rfl, h⟩
    exact ⟨rfl, h.of_same rfl rfl rfl⟩
  parts := fun _ e' _ => hK.code e'
  spawns := fun _ => hK.spawns
  openFrame := hK.openFrame
  closeFrame := hK.closeFrame
  grow := hK.grow
  plain := hK.plain
  raised := hK.raised
  withStack := hK.withStack
  given := fun h => h _ rfl
  uncaught := nofun

/-- What is in flight may be forgotten, and may be put into the store. -/
theorem Bond.deferring_upholding : (upholding K).Deferring where
  toLawful := lawful_upholding hK
  fresh := by
    rintro F m m' ⟨rfl, h⟩
    refine ⟨rfl, h.of_store (fun w hw => ?_) fun p o ho => ?_⟩
    · rw [Store.waits_fresh] at hw
      exact .inl hw
    · rw [Store.outcome?, Store.state_fresh] at ho
      exact .inl ho
  derived := by
    rintro F m m' p k ⟨rfl, h⟩ hk
    refine ⟨rfl, h.of_store (fun w hw => ?_) fun p o ho => ?_⟩
    · rw [Store.waits_fresh, Multiset.add_cons, Multiset.mem_cons] at hw
      rcases hw with rfl | hw
      · exact .inr hk
      · exact .inl hw
    · rw [Store.outcome?, Store.state_fresh] at ho
      exact .inl ho
  gathering := by
    rintro F m m' g ⟨rfl, h⟩
    refine ⟨rfl, h.of_store (fun w hw => ?_) fun p o ho => .inl ho⟩
    rw [Store.waits_addGather] at hw
    exact .inl hw
  launched := by
    rintro F m m' p k ⟨rfl, h⟩ hk -
    refine ⟨rfl, h.running, fun w hw => ?_, h.failed, h.queued⟩
    rw [Multiset.add_cons, Multiset.mem_cons] at hw
    rcases hw with rfl | hw
    · exact hk
    · exact h.waiting w hw
  registered := by
    rintro F m m' p k ks ⟨rfl, h⟩ hp
    have hregister : m.store.setState p (.pending (ks ++ [k])) = (m.store.register p k).2 := by
      rw [Store.register, hp]
    refine ⟨rfl, h.of_store (fun w hw => .inl ?_) fun q o ho => .inl ?_⟩
    · rw [hregister, Multiset.mem_add] at hw
      rw [Multiset.add_cons, ← Multiset.cons_add, Multiset.mem_add]
      exact hw.imp_left (Multiset.mem_of_le (Store.waits_register_le p k m.store))
    · rw [Store.outcome?_register_eq hp] at ho
      exact ho

theorem Bond.settling_upholding : (upholding K).Settling where
  toDeferring := deferring_upholding hK
  forgotten := by
    rintro F G m m' ⟨rfl, h⟩
    refine ⟨rfl, h.running, fun w hw => h.waiting w ?_, h.failed, h.queued⟩
    rw [← add_assoc, add_comm m.store.waits, add_assoc]
    exact Multiset.mem_add.2 (.inr hw)
  settled := by
    rintro F m m' t o ks ⟨rfl, h⟩ ho ht
    have hwaits := Store.waits_settle_add t o m.store
    rw [Store.settle_pending ht] at hwaits
    refine ⟨rfl, h.of_store (fun w hw => .inl ?_) fun p o' ho' => ?_⟩
    · rw [← add_assoc, hwaits] at hw
      exact hw
    · by_cases hp : p = t
      · subst hp
        by_cases hhas : m.store.Has p
        · rw [Store.outcome?_setState_self hhas] at ho'
          obtain rfl := Option.some.inj ho'
          exact .inr ho
        · rw [Store.setState_of_not_has hhas] at ho'
          exact .inl ho'
      · rw [Store.outcome?_setState_ne hp] at ho'
        exact .inl ho'
  recorded := by
    rintro F m m' id place o ⟨rfl, h⟩
    refine ⟨rfl, h.of_store (fun w hw => ?_) fun p o ho => ?_⟩
    · rw [Store.waits_record] at hw
      exact .inl hw
    · rw [Store.outcome?_record] at ho
      exact .inl ho
  enqueued := by
    rintro F m m' task ⟨rfl, h⟩ htask
    refine ⟨rfl, h.running, h.waiting, h.failed, fun task' hmem => ?_⟩
    rcases List.mem_append.1 hmem with hmem | hmem
    · exact h.queued task' hmem
    · rw [List.mem_singleton.1 hmem]
      exact htask
  dequeued := by
    rintro F m m' queue ⟨rfl, h⟩ hqueue
    exact ⟨rfl, h.running, h.waiting, h.failed, fun task hmem => h.queued task (hqueue task hmem)⟩
  caller := by
    rintro F m m' ⟨rfl, h⟩
    exact h.queued
  value := nofun
  error := by
    intro e he e' he'
    obtain rfl := Except.error.inj he'
    exact he
  unbroken := fun _ => id

theorem Bond.hosted_upholding : (upholding K).Hosted where
  toSettling := settling_upholding hK
  code := hK.code
  setModule := hK.setModule
  resume := by
    rintro F m m' ⟨rfl, h⟩
    exact ⟨rfl, h.of_same rfl rfl rfl⟩
  hold := by
    rintro F m m' held ⟨rfl, h⟩
    exact ⟨rfl, h.of_same rfl rfl rfl⟩

end

/-! ## Sessions without a run -/

namespace Session

variable {K : Terms} (hK : K.Closed)
include hK

theorem upholds_native {m : Machine} {F : InFlight} (h : m.Upholds K F) (name : String)
    (operation : Native) (arity : Nat) : (defineNative m name operation arity).Upholds K F :=
  ⟨hK.grow [⟨name, .function ⟨m.rest.functions.size⟩, true⟩] h.running, h.waiting, h.failed, h.queued⟩

theorem upholds_start (hempty : K.Scope .empty) (executor : Executor) (maxCallDepth : Nat)
    (withPrelude withHost : Bool) :
    (Session.start executor maxCallDepth withPrelude withHost).machine.Upholds K 0 := by
  have hstore := store_start executor maxCallDepth withPrelude withHost
  generalize hm : (Session.start executor maxCallDepth withPrelude withHost).machine = m at hstore ⊢
  have henv : m.rest.env = Environment.empty.grow m.rest.env.bindings := by
    subst hm
    cases withPrelude <;> cases withHost <;> rfl
  have hqueue : m.rest.queue = [] := by
    subst hm
    cases withPrelude <;> cases withHost <;> rfl
  refine ⟨?_, fun w hw => ?_, fun p e he => ?_, fun task htask => ?_⟩
  · rw [henv]
    exact hK.grow _ hempty
  · rw [hstore, add_zero] at hw
    exact absurd hw (Multiset.notMem_zero w)
  · rw [hstore, Store.outcome?, Store.state_of_not_has (Nat.not_lt_zero _)] at he
    cases he
  · rw [hqueue] at htask
    cases htask

end Session

/-! ## Engines -/

/-- The settings lead to no other environments and errors than there are: neither by what the host
answers nor by how calls are entered. -/
structure Context.Upholds (K : Terms) (context : Context) : Prop where
  host : ∀ name args e, (context.host name args).answer = .error e → K.Failure e
  enters : ∀ id f args location caller, K.Scope caller →
    (Bond.upholding K).Enters (bodyEnvironment context.maxCallDepth id f args location caller)

/-- A wrapper that makes no difference as long as all that is kept is among the terms. -/
def Spares (K : Terms) (wrap : EvalM Value → EvalM Value) : Prop :=
  ∀ x y, (Bond.upholding K).Together x y → (Bond.upholding K).Together x (wrap y)

section

variable {K : Terms} (hK : K.Closed) {wrap : EvalM Value → EvalM Value} (hwrap : Spares K wrap)
  {context : Context} (hcontext : context.Upholds K)
include hK hwrap hcontext

/-- The wrapped engine does what the engine does. -/
theorem shadow_upholding : (Bond.upholding K).Shadow context (wrapped wrap true context) where
  settling := Bond.settling_upholding hK
  context_eq := wrapped_context _ _ _
  host := hcontext.host
  enters := hcontext.enters
  exhausted := rfl
  eval _ _ := hwrap _ _
  proceed _ _ := rfl
  resume := wrapped_resume _ _
  deliver n F m m' p k o hm := by
    have hk := hm.2.waiting (p, k) (Multiset.mem_add.2 (.inr (Multiset.mem_cons_self _ _)))
    exact ⟨hk, m', (Bond.settling_upholding hK).forgotten (G := {(p, k)}) hm, rfl⟩

/-- Commands are carried out in the same way by the wrapped engine. -/
theorem Session.inStep_upholding {s : Session} (hs : s.context = context)
    (hm : s.machine.Upholds K 0) {c : Command} (hc : c.Fine (.upholding K) s.environment) :
    Replies (Alongside (.upholding K) context) (s.run c)
      (s.runWith (wrapped wrap true context s.fuel) c) := by
  obtain ⟨T, hD⟩ := (shadow_upholding hK hwrap hcontext).tandem s.fuel
  have halongside : Alongside (.upholding K) context s s := ⟨hs, rfl, rfl, hm⟩
  rw [Session.run, Session.engine, hs]
  exact halongside.runWith (Bond.hosted_upholding hK) T hD (conducted_engine _ _) hc

end

end Deferral
