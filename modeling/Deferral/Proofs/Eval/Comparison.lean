import Deferral.Proofs.Eval.Lifting
import Deferral.Proofs.Value.Resolve

/-!
# Comparing values that hold promises

An operator looks through promises among its operands and nowhere else. So `==` and `in` compare what
stands at the top of their operands, and promises deeper inside are compared by identity, even where
they are fulfilled. `Strict.comparison_peels_top` says when the answer is the one for what the operands
stand for.
-/

set_option autoImplicit false

namespace Deferral

variable {m : Machine}

theorem Store.has_of_outcome? {s : Store Handler} {p : PromiseId} {o : Outcome}
    (h : s.outcome? p = some o) : s.Has p := by
  by_contra hhas
  rw [Store.outcome?, Store.state_of_not_has hhas] at h
  cases h

theorem Store.Holds.eq_operands {s : Store Handler} {operands values : List Value}
    (h : s.Holds operands values) (hany : operands.any Value.isPromise = false) :
    values = operands := by
  induction h with
  | nil => rfl
  | @cons v w _ _ hhead _ ih =>
    rw [List.any_cons, Bool.or_eq_false_iff] at hany
    rw [ih hany.2]
    cases v with
    | promise p => cases hany.1
    | _ =>
      cases hhead
      rfl

/-- A gather of operands that are all there has their values at once. -/
theorem Collection.Inv.gathered {C : Collection} {values : List Value} (h : C.Inv 0 m)
    (hholds : m.store.Holds C.operands values) :
    m.store.outcome? C.result = some (.ok (.tuple values)) := by
  rcases h.between with ⟨-, ⟨p, hp, hpending⟩, -⟩ | ⟨values', hholds', hresult⟩ | ⟨p, e, hp, he, -⟩
  · obtain ⟨v, hv⟩ := hholds.outcome? hp
    cases hpending.symm.trans hv
  · rwa [hholds.eq hholds']
  · obtain ⟨v, hv⟩ := hholds.outcome? hp
    cases he.symm.trans hv

/-- An operation on operands that are all there, and that gives a value, has it at once: its result is
the value, or a promise that holds it. -/
theorem Strict.apply_there (hm : m.Sound) {operands values : List Value}
    (hholds : m.store.Holds operands values) (context : Context) {operation : Strict} {v : Value}
    (hrun : operation.run context values = pure v) (hv : v.isPromise = false) (n : Nat) :
    ∃ r m₁, Strict.apply (engine context (n + 2)) operation operands m = .ok r m₁ ∧
      m₁.store.operand? r = some (.ok v) := by
  have hconcrete : Concrete (.ok v) := by
    rintro q ⟨⟩
    cases hv
  cases hany : operands.any Value.isPromise with
  | false =>
    obtain rfl := hholds.eq_operands hany
    refine ⟨v, m, ?_, ?_⟩
    · rw [Strict.apply_direct hany, engine_context, hrun]
      rfl
    · cases v with
      | promise p => cases hv
      | _ => rfl
  | true =>
    have hhas : ∀ p, .promise p ∈ operands → m.store.Has p := by
      intro p hp
      obtain ⟨w, hw⟩ := hholds.outcome? hp
      exact Store.has_of_outcome? hw
    obtain ⟨m₁, hall, hC⟩ := Collection.start_all hm hany hhas
    have hall₁ := hall _ (gathers_engine _ context (n + 1))
    have hgathered := hC.gathered (hC.hidden.evolves.holds hholds)
    -- the gather is complete, so the operation is run at once and nothing waits for its result
    let m₂ := m₁.withStore m₁.store.fresh.2
    let m₃ := m₂.withStore (m₂.store.setState m₁.store.fresh.1 (.ofOutcome (.ok v)))
    have hhandle : (engine context (n + 1)).handle (.compute operation) (.ok (.tuple values)) m₂ =
        .ok (.ok v) m₂ := by
      rw [Engine.handle, engine_context]
      change EvalM.outcome (operation.run context values) m₂ = _
      rw [hrun]
      rfl
    have hfulfil : Promise.fulfil (engine context (n + 1)).deliver m₁.store.fresh.1 (.ok v) m₂ =
        .ok () m₃ := by
      rw [Promise.fulfil_concrete _ hconcrete]
      exact Promise.settle_quiet _ m₁.store.state_made _
    refine ⟨.promise m₁.store.fresh.1, m₃, ?_, ?_⟩
    · rw [Strict.apply_promises hany hall₁]
      refine EvalM.bind_of_ok ((Promise.derive_settled hgathered _ context (n + 1)).trans ?_)
      exact (EvalM.bind_of_ok hhandle).trans (EvalM.bind_of_ok hfulfil)
    · exact Store.outcome?_setState_self (hm.all hall₁).hidden_fresh.has _

theorem Value.Fulfilled.operand? {s : Store Handler} {v : Value} (h : v.Fulfilled s.outcome?) :
    s.operand? v = some (.ok (v.peel s.outcome?)) := by
  cases h with
  | plain free =>
    cases v with
    | promise p => cases free
    | _ => rfl
  | promise holds _ =>
    rw [Value.peel_fulfilled holds]
    exact holds
  | _ => rfl

/-- Where every promise inside two values is fulfilled with a promise-free value, `==` answers at once,
and says that they are equal if they stand for the same and what they are at the top has the same
promises at the same places. For what is at the top a sequence, `in` finds an element by the same
comparison. -/
theorem Strict.comparison_peels_top (hm : m.Sound) {a b : Value} (ha : a.Fulfilled m.store.outcome?)
    (hb : b.Fulfilled m.store.outcome?) (context : Context) (n : Nat) :
    (∃ r m₁ answer, Strict.apply (engine context (n + 2)) (.binary .eq) [a, b] m = .ok r m₁ ∧
      m₁.store.operand? r = some (.ok (.bool answer)) ∧
      (answer = true ↔ (a.resolve m.store.outcome? == b.resolve m.store.outcome?) = true ∧
        Value.Alike (a.peel m.store.outcome?) (b.peel m.store.outcome?))) ∧
    ∀ s, b.peel m.store.outcome? = .seq s →
      ∃ r m₁ answer, Strict.apply (engine context (n + 2)) (.binary .mem) [a, b] m = .ok r m₁ ∧
        m₁.store.operand? r = some (.ok (.bool answer)) ∧
        (answer = true ↔ ∃ x ∈ s.toList,
          (x.resolve m.store.outcome? == a.resolve m.store.outcome?) = true ∧
            Value.Alike x (a.peel m.store.outcome?)) := by
  have hholds : m.store.Holds [a, b] [a.peel m.store.outcome?, b.peel m.store.outcome?] :=
    .cons ha.operand? (.cons hb.operand? .nil)
  constructor
  · have hrun : Strict.run context (.binary .eq) [a.peel m.store.outcome?, b.peel m.store.outcome?] =
        pure (.bool (a.peel m.store.outcome? == b.peel m.store.outcome?)) := rfl
    obtain ⟨r, m₁, happly, hr⟩ := Strict.apply_there hm hholds context hrun rfl n
    refine ⟨r, m₁, _, happly, hr, ?_⟩
    rw [← ha.resolve_peel, ← hb.resolve_peel]
    exact Value.eqv_iff_resolve ha.peel hb.peel
  · intro s hs
    rw [hs] at hholds
    have hrun : Strict.run context (.binary .mem) [a.peel m.store.outcome?, .seq s] =
        pure (.bool (s.contains (a.peel m.store.outcome?))) := rfl
    obtain ⟨r, m₁, happly, hr⟩ := Strict.apply_there hm hholds context hrun rfl n
    refine ⟨r, m₁, _, happly, hr, ?_⟩
    rw [← ha.resolve_peel]
    exact Value.contains_iff_resolve (hs ▸ hb.peel) ha.peel

/-- A session with a promise that holds a tuple. -/
def Session.provided : Session :=
  ((Session.start .immediate 10 false true).run
    (.promise "pair" (some (.ok (.tuple [.int 1]))) false)).1

theorem Session.sound_provided : Session.provided.machine.Sound :=
  (Session.Reachable.run (.start .immediate 10 false true)
    (.promise "pair" (some (.ok (.tuple [.int 1]))) false)).sound

/-- At the top of an operand a promise is looked through. -/
theorem Strict.comparison_peels_top_pair :
    ∃ r m₁, Strict.apply (engine Session.provided.context 2) (.binary .eq)
        [.promise ⟨0⟩, .tuple [.int 1]] Session.provided.machine = .ok r m₁ ∧
      m₁.store.operand? r = some (.ok (.bool true)) := by
  obtain ⟨⟨r, m₁, answer, happly, hr, hanswer⟩, -⟩ :=
    Strict.comparison_peels_top Session.sound_provided (a := .promise ⟨0⟩) (b := .tuple [.int 1])
      (.promise rfl rfl) (.plain rfl) Session.provided.context 0
  obtain rfl : answer = true := hanswer.2 ⟨by decide, .plain rfl rfl⟩
  exact ⟨r, m₁, happly, hr⟩

/-- Inside a tuple or a sequence it is not. -/
theorem Strict.comparison_of_elements :
    let held := Session.provided.machine.store.outcome?
    let a := Value.tuple [.promise ⟨0⟩]
    let b := Value.tuple [.tuple [.int 1]]
    let s := Seq.ofList [Value.promise ⟨0⟩]
    Session.provided.machine.Sound ∧ a.Fulfilled held ∧ b.Fulfilled held ∧
      (Value.seq s).Fulfilled held ∧
      (a.resolve held == b.resolve held) = true ∧
      Strict.apply (engine Session.provided.context 2) (.binary .eq) [a, b]
        Session.provided.machine = .ok (.bool false) Session.provided.machine ∧
      (Value.resolveSeq held s).contains (.tuple [.int 1]) = true ∧
      Strict.apply (engine Session.provided.context 2) (.binary .mem) [.tuple [.int 1], .seq s]
        Session.provided.machine = .ok (.bool false) Session.provided.machine := by
  have hp : ∀ v ∈ [Value.promise ⟨0⟩], v.Fulfilled Session.provided.machine.store.outcome? :=
    fun v hv => List.mem_singleton.1 hv ▸ .promise rfl rfl
  exact ⟨Session.sound_provided, .tuple hp, .plain rfl, .seq hp, by decide, rfl, by decide, rfl⟩

end Deferral
