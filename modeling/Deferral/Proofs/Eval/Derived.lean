import Deferral.Proofs.Eval.Completion
import Deferral.Proofs.Eval.Link
import Deferral.Proofs.Session.Transcript

/-!
# Deriving a promise

A machine is `Sound` if whatever waits in it is for promises that have been made; every machine that a
host can have in its hands is, and so is every machine that code is run in on the way. From a sound
machine, deriving a promise starts a link: the handler is in flight, and nothing else is about to settle
the new promise. `Link.Account` is what the phases of a link come to between two turns, when nothing is
in flight.
-/

set_option autoImplicit false

namespace Deferral

/-- No promise holds a promise, and what waits, for a promise or in the queue, is for promises that have
been made. -/
structure Machine.Sound (m : Machine) : Prop where
  flat : m.store.Flat
  fenced : m.store.Fenced ⟨0, 0⟩
  queued : ∀ task ∈ m.rest.queue, m.store.Has task.target

theorem Session.Reachable.sound {s : Session} (h : s.Reachable) : s.machine.Sound :=
  ⟨h.flat, h.fenced, h.queued⟩

/-- A session with a promise that has been given nothing yet. -/
def Session.expecting : Session :=
  ((Session.start .immediate 10 false true).run (.promise "later" none false)).1

theorem Session.sound_expecting : Session.expecting.machine.Sound :=
  (Session.Reachable.run (.start .immediate 10 false true) (.promise "later" none false)).sound

theorem Twin.refl (m : Machine) : Twin 0 m m := ⟨rfl, rfl⟩

/-- Nothing waits for a promise that has just been made. -/
theorem Store.state_made (s : Store Handler) : s.fresh.2.state s.fresh.1 = .pending [] := by
  rw [Store.state_fresh, Store.state_of_not_has s.not_has_fresh]

theorem passed_fresh (m : Machine) : Passed m (m.withStore m.store.fresh.2) :=
  ⟨.of_store (.fresh _ _) rfl, m.store.fenced_fence.fresh, .single (.made m)⟩

section

variable {kind : Continuation Handler → Bool} {F : InFlight} {s : Store Handler}

theorem held_add : held kind F s = held kind 0 s + F.filter fun e => kind e.2 := by
  rw [held, held, Multiset.filter_add, add_zero]

/-- Nothing is held that could not be there. -/
theorem Store.Fenced.held_eq_zero (h : s.Fenced ⟨0, 0⟩)
    (hkind : ∀ k, s.Admits ⟨0, 0⟩ k → kind k = false) : held kind 0 s = 0 := by
  refine Multiset.filter_eq_nil.2 fun e he => ?_
  obtain ⟨p, k⟩ := e
  rw [add_zero] at he
  obtain ⟨ks, hks, hk⟩ := Store.mem_waits.1 he
  simp [hkind k (h.waiting p ks (Nat.zero_le _) hks k hk)]

end

namespace Machine.Sound

variable {m m₁ : Machine} (h : m.Sound)
include h

/-- A machine stays sound when code is run in it. -/
theorem after {α : Type} {x : EvalM α} {a : α} {settings : Context}
    {ρ : Environment → Environment → Prop}
    (hx : Parallel (.whole .plain) m.rest.env.module x x) (hconduct : Conduct settings ρ x)
    (hr : x m = .ok a m₁) : m₁.Sound := by
  have hends := (hconduct m).evolves
  have hagree := hx m m (Alike.plain h.fenced) (.refl _)
  rw [hr] at hends hagree
  cases hagree with
  | ok _ hafter =>
    have honward := hafter.onward fun task htask => Store.owns_zero.2 (h.queued task htask)
    exact ⟨hends.flat h.flat, hafter.alike.fenced, fun task htask =>
      Store.owns_zero.1 (honward.queued task htask)⟩

theorem eval {context : Context} {n : Nat} {e : Expr} {v : Value}
    (hr : (engine context n).eval e m = .ok v m₁) : m₁.Sound := by
  have hx := (Session.abreast_engine (.whole .plain) rfl context n).eval e m.rest.env.module
  have hplain : e.relabel (Pairing.whole .plain).label m.rest.env.module = e := e.relabel_plain _
  rw [hplain] at hx
  exact h.after hx ((conducted_engine context n).eval e) hr

theorem evalItems {context : Context} {n : Nat} {es : List Expr} {vs : List Value}
    (hr : (engine context n).evalItems es m = .ok vs m₁) : m₁.Sound := by
  induction es generalizing m vs with
  | nil =>
    cases hr
    exact h
  | cons e es ih =>
    obtain ⟨v, m₂, hv, hr⟩ := EvalM.ok_of_bind hr
    obtain ⟨vs, m₃, hvs, hr⟩ := EvalM.ok_of_bind hr
    cases hr
    exact ih (h.eval hv) hvs

theorem all {context : Context} {n : Nat} {operands : List Value} {p : PromiseId}
    (hr : Promise.all (engine context n).deliver operands m = .ok p m₁) : m₁.Sound :=
  h.after (.all (Session.abreast_engine (.whole .plain) rfl context n).deliver operands)
    (Conduct.composed.all (conducted_engine context n).deliver operands) hr

/-- Nothing in a machine is about to settle a promise that is made next. -/
theorem hidden_fresh : Private m.store.fresh.1 none m (m.withStore m.store.fresh.2) where
  evolves := .single (.made m)
  flat := Change.flat (.made m) h.flat
  has := Store.has_fresh.2 (.inr rfl)
  results id g hg _ he :=
    m.store.not_has_fresh (he ▸ (h.fenced.results id.index g (Nat.zero_le _) hg).2)
  tasks task htask he := m.store.not_has_fresh (he ▸ h.queued task htask)

theorem held_settles_fresh :
    held (Continuation.settles m.store.fresh.1) 0 m.store.fresh.2 = 0 := by
  have hne : ∀ t, m.store.Owns ⟨0, 0⟩ t → (t == m.store.fresh.1) = false := by
    intro t ht
    refine beq_false_of_ne ?_
    rintro rfl
    exact m.store.not_has_fresh ht.2
  refine (held_congr (Store.waits_fresh _)).trans (h.fenced.held_eq_zero fun k hk => ?_)
  cases k with
  | adopt t => exact hne t hk
  | derive t handler => exact hne t hk
  | _ => rfl

/-- A promise that is derived starts out with its handler in flight. -/
theorem link {p : PromiseId} (hp : m.store.Has p) (context : Context) (handler : Handler)
    (ready : Machine → Prop) :
    (Link.mk context m p m.store.fresh.1 handler ready).Inv
      {(p, .derive m.store.fresh.1 handler)} 0 (m.withStore m.store.fresh.2) := by
  have hk : (Continuation.derive m.store.fresh.1 handler).settles m.store.fresh.1 = true :=
    beq_self_eq_true _
  refine ⟨h.hidden_fresh, Store.has_fresh.2 (.inl hp), .waiting ?_ ?_⟩
  · rw [Link.tokens, ← Multiset.cons_zero]
    exact (held_cons_of_true hk).trans (congrArg _ h.held_settles_fresh)
  · rw [Machine.withStore, Store.outcome?, Store.state_made]
    rfl

end Machine.Sound

/-! ## Running the derivation -/

section

variable {context : Context} {m : Machine} {p q : PromiseId} {o : Outcome} {n : Nat}

/-- A derivation keeps a protocol that holds with its handler in flight. -/
theorem Protocol.derives {P : Protocol context q} (hq : P.Counts) {handler : Handler}
    (hfresh : m.store.fresh.1 = q)
    (hinv : P.Inv {(p, .derive q handler)} 0 (m.withStore m.store.fresh.2)) (n : Nat) :
    Tally (P.Inv 0) (Promise.derive (engine context n).deliver p handler m)
      (Promise.derive (observed q context n).deliver p handler m) := by
  unfold Promise.derive
  rw [Promise.new_bind, Promise.new_bind, hfresh]
  refine (onComplete (P.kept hq n) hinv (.refl _)).bind fun _ d m₁ m₁' _ hinv₁ twin₁ => ?_
  exact .ok q hinv₁ twin₁

/-- Settling a promise that nothing waits for does nothing else. -/
theorem Promise.settle_quiet (d : Continuation Handler → Outcome → EvalM Unit)
    (h : m.store.state q = .pending []) (o : Outcome) :
    Promise.settle d q o m = .ok () (m.withStore (m.store.setState q (.ofOutcome o))) := by
  rw [Promise.settle_apply, Store.settle_pending h]
  rfl

/-- Giving an outcome to a promise that nothing waits for comes to an end. -/
theorem Promise.fulfil_quiet (hflat : m.store.Flat) (h : m.store.state q = .pending []) (o : Outcome)
    (context : Context) (n : Nat) :
    ∃ s, Promise.fulfil (engine context (n + 1)).deliver q o m = .ok () (m.withStore s) := by
  rcases concrete_or_promise o with ho | ⟨r, rfl⟩
  · rw [Promise.fulfil_concrete _ ho, Promise.settle_quiet _ h]
    exact ⟨_, rfl⟩
  · by_cases hr : r = q
    · subst hr
      rw [Promise.fulfil_self, Promise.settle_quiet _ h]
      exact ⟨_, rfl⟩
    · rw [Promise.fulfil_other _ hr, Promise.onComplete_apply]
      rcases Store.register_cases r (.adopt q) m.store with ⟨ks, hks, hs⟩ | ⟨o, ho, hs⟩
      · rw [hs]
        exact ⟨_, rfl⟩
      · rw [hs]
        change ∃ s, Promise.fulfil (engine context n).deliver q o m = _
        rw [Promise.fulfil_concrete _ (hflat r o ho), Promise.settle_quiet _ h]
        exact ⟨_, rfl⟩

/-- A derivation from a promise that is settled runs the handler at once. -/
theorem Promise.derive_settled (hp : m.store.outcome? p = some o) (handler : Handler)
    (context : Context) (n : Nat) :
    Promise.derive (engine context (n + 1)).deliver p handler m =
      (do
        let answer ← (engine context n).handle handler o
        Promise.fulfil (engine context n).deliver m.store.fresh.1 answer
        return m.store.fresh.1) (m.withStore m.store.fresh.2) := by
  have hstate : m.store.fresh.2.state p = .ofOutcome o :=
    (Store.state_fresh ..).trans (Store.state_of_outcome? hp)
  have hregister : m.store.fresh.2.register p (.derive m.store.fresh.1 handler) =
      (some o, m.store.fresh.2) := by
    rcases Store.register_cases p (.derive m.store.fresh.1 handler) m.store.fresh.2 with
      ⟨ks, hks, -⟩ | ⟨o', ho', hs⟩
    · exact absurd (hstate.symm.trans hks) (PromiseState.ofOutcome_ne_pending o ks)
    · rw [hs, PromiseState.ofOutcome_injective (ho'.symm.trans hstate)]
  unfold Promise.derive
  rw [Promise.new_bind]
  change (Promise.onComplete _ p (.derive m.store.fresh.1 handler) >>= fun _ => pure m.store.fresh.1)
    (m.withStore m.store.fresh.2) = _
  rw [← bind_assoc]
  change EStateM.bind _ _ _ = EStateM.bind _ _ _
  unfold EStateM.bind
  rw [Promise.onComplete_apply, Machine.withStore, hregister]
  rfl

/-- A derivation from a promise that has no value yet, or never gets one, comes to an end at once. -/
theorem Promise.derive_held (handler : Handler)
    (hpasses : ∀ E e, Engine.handle E handler (.error e) = pure (.error e))
    (hp : ∀ v, m.store.outcome? p ≠ some (.ok v)) (context : Context) (n : Nat) :
    ∃ s, Promise.derive (engine context (n + 1)).deliver p handler m =
      .ok m.store.fresh.1 (m.withStore s) ∧ s.outcome? p = m.store.outcome? p := by
  cases ho : m.store.outcome? p with
  | none =>
    rcases Store.register_cases p (.derive m.store.fresh.1 handler) m.store.fresh.2 with
      ⟨ks, hks, hs⟩ | ⟨o, ho', -⟩
    · have hregistered : Promise.onComplete (engine context (n + 1)).deliver p
          (.derive m.store.fresh.1 handler) (m.withStore m.store.fresh.2) =
          .ok () (m.withStore (m.store.fresh.2.setState p
            (.pending (ks ++ [.derive m.store.fresh.1 handler])))) := by
        rw [Promise.onComplete_apply, Machine.withStore, hs]
        rfl
      refine ⟨_, EvalM.bind_of_ok hregistered, ?_⟩
      rw [Store.outcome?_register_eq hks, Store.outcome?, Store.state_fresh]
      exact ho
    · rw [Store.state_fresh] at ho'
      cases ho.symm.trans (Store.outcome?_of_state ho')
  | some o =>
    cases o with
    | ok v => exact absurd ho (hp v)
    | error e =>
      rw [Promise.derive_settled ho, hpasses, pure_bind, Promise.fulfil_concrete _ (concrete_error e)]
      refine ⟨_, EvalM.bind_of_ok (Promise.settle_quiet _ m.store.state_made _), ?_⟩
      have hne : p ≠ m.store.fresh.1 := by
        rintro rfl
        rw [Store.outcome?, Store.state_of_not_has m.store.not_has_fresh] at ho
        cases ho
      rw [Machine.withStore, Store.outcome?_setState_ne hne, Store.outcome?, Store.state_fresh]
      exact ho

end

/-! ## Between two turns -/

/-- What a promise holds that has been given an answer: the answer itself, or what comes of it if it is
a promise. -/
def Store.look (s : Store Handler) (q : PromiseId) : Outcome → Option Outcome
  | .ok (.promise r) => if r = q then some (.error (.resolution .selfFulfilment)) else s.outcome? r
  | o => some o

theorem Store.look_concrete (s : Store Handler) (q : PromiseId) {o : Outcome} (ho : Concrete o) :
    s.look q o = some o := by
  unfold look
  split
  · exact absurd rfl (ho _)
  · rfl

theorem Store.look_other (s : Store Handler) {q r : PromiseId} (h : r ≠ q) :
    s.look q (.ok (.promise r)) = s.outcome? r := if_neg h

namespace Link

variable (L : Link)

/-- What has become of a derived promise, after a number of starts of its handler. -/
structure Account (d : Nat) (m : Machine) : Prop where
  pending : m.store.outcome? L.source = none → d = 0 ∧ m.store.outcome? L.target = none
  failed : ∀ e, m.store.outcome? L.source = some (.error e) →
    d = 0 ∧ m.store.outcome? L.target = some (.error e)
  fulfilled : ∀ v, m.store.outcome? L.source = some (.ok v) → d = 1 ∧
    ∃ answer before after n, Evolves L.origin before ∧
      before.store.outcome? L.source = some (.ok v) ∧ L.ready before ∧
      (engine L.context n).handle L.handler (.ok v) before = .ok answer after ∧ Evolves after m ∧
      ((∀ r, answer = .ok (.promise r) → after.store.Has r) →
        m.store.outcome? L.target = m.store.look L.target answer)

variable {L} {d : Nat} {m : Machine}

/-- The source still holds what the handler was run on. -/
theorem Ran.source {given answer : Outcome} {after : Machine} (h : L.Ran given answer after m) :
    m.store.outcome? L.source = some given := by
  obtain ⟨before, n, -, hsource, -, hr, hafter⟩ := h
  have hends := ((conducted_engine L.context n).handle L.handler given before).evolves
  rw [hr] at hends
  exact hafter.outcome? (Evolves.outcome? hends hsource)

/-- With nothing in flight the handler has been run if the source has an outcome, and the target holds
what has come of the answer. -/
theorem Inv.answer (h : L.Inv 0 d m) {o : Outcome} (ho : m.store.outcome? L.source = some o) :
    d = count o ∧ ∃ answer after, L.Ran o answer after m ∧
      ((∀ r, answer = .ok (.promise r) → after.store.Has r) →
        m.store.outcome? L.target = m.store.look L.target answer) := by
  have hgiven : ∀ {given answer after}, L.Ran given answer after m → given = o :=
    fun hran => Option.some.inj (hran.source.symm.trans ho)
  cases h.phase with
  | waiting htokens hpending =>
    have hsource : m.store.outcome? L.source = none :=
      outcome?_of_held (htokens ▸ Multiset.mem_singleton_self _)
    cases hsource.symm.trans ho
  | adopting given s after hran hs htokens hpending =>
    obtain rfl := hgiven hran
    refine ⟨rfl, _, after, hran, fun _ => ?_⟩
    have hadopted : m.store.outcome? s = none :=
      outcome?_of_held (htokens ▸ Multiset.mem_singleton_self _)
    rw [Store.look_other _ hs, hpending, hadopted]
  | lost given s after hran hs =>
    obtain rfl := hgiven hran
    exact ⟨rfl, _, after, hran, fun hmade => absurd (hmade s rfl) hs⟩
  | answered given answer after o' hran hcomes ho' _ htarget =>
    obtain rfl := hgiven hran
    refine ⟨rfl, answer, after, hran, fun _ => ?_⟩
    rw [htarget]
    cases hcomes with
    | itself => exact (Store.look_concrete _ _ ho').symm
    | loop h => rw [h, Store.look, if_pos rfl]
    | through s h hs hadopted => rw [h, Store.look_other _ hs, hadopted]

/-- As long as the source has no outcome, the handler waits. -/
theorem Inv.waits (h : L.Inv 0 d m) (ho : m.store.outcome? L.source = none) :
    d = 0 ∧ m.store.outcome? L.target = none := by
  cases h.phase with
  | waiting htokens hpending => exact ⟨rfl, hpending⟩
  | adopting _ _ _ hran => cases hran.source.symm.trans ho
  | lost _ _ _ hran => cases hran.source.symm.trans ho
  | answered _ _ _ _ hran => cases hran.source.symm.trans ho

/-- With nothing in flight the state of the source says how far it has come, if failures are passed
on. -/
theorem Inv.account (hpasses : ∀ E e, Engine.handle E L.handler (.error e) = pure (.error e))
    (h : L.Inv 0 d m) : L.Account d m := by
  refine ⟨h.waits, fun e he => ?_, fun v hv => ?_⟩
  · obtain ⟨hd, answer, after, ⟨before, n, -, -, -, hr, -⟩, htarget⟩ := h.answer he
    rw [hpasses] at hr
    obtain rfl : .error e = answer := by
      cases hr
      rfl
    exact ⟨hd, htarget nofun⟩
  · obtain ⟨hd, answer, after, ⟨before, n, hbefore, hsource, hready, hr, hafter⟩, htarget⟩ := h.answer hv
    exact ⟨hd, answer, before, after, n, hbefore, hsource, hready v rfl, hr, hafter, htarget⟩

end Link

end Deferral
