import Deferral.Proofs.Eval.Gathering

/-!
# Operations on operands that come later

An operation that is applied to promises gathers them and derives its result from the gather. The
operands are a `Collection` and the result is the target of a `Link` whose source is the result of the
collection, so what becomes of the result can be read off the two invariants, at any time between two
turns of the host. `Lifted` says what that is: nothing before the last operand is there; then the answer
of the operation, applied once to the values of the operands; and the failure of an operand, if one has
failed, without the operation having been started.
-/

set_option autoImplicit false

namespace Deferral

/-! ## Operations that are run -/

/-- The computation leaves the promises alone, and has an outcome unless it panics. -/
def Tame (x : EvalM Value) : Prop := ∀ m,
  (∃ o rest, EvalM.outcome x m = .ok o ⟨m.store, rest⟩) ∨
    ∃ payload rest, x m = .error (.panic payload) ⟨m.store, rest⟩

namespace Tame

theorem pure (v : Value) : Tame (Pure.pure v) := fun m => .inl ⟨.ok v, m.rest, rfl⟩

theorem fail (e : Error) : Tame (EvalM.fail e) := fun m => .inl ⟨.error e, m.rest, rfl⟩

theorem ofExcept (r : Except Error Value) : Tame (EvalM.ofExcept r) := by
  cases r with
  | ok v => exact pure v
  | error e => exact fail e

theorem reply (r : Reply) : Tame (Native.reply r) := by
  obtain ⟨answer, logged, interrupts⟩ := r
  intro m
  cases answer with
  | panic payload => cases interrupts <;> exact .inr ⟨payload, _, rfl⟩
  | _ => cases interrupts <;> exact .inl ⟨_, _, rfl⟩

theorem native (host : String → List Value → Reply) (operation : Native) (operands : List Value) :
    Tame (operation.run host operands) := by
  unfold Native.run
  split
  · exact pure _
  · unfold Native.sizeOf
    split
    · exact ofExcept _
    · exact fail _
  · exact pure _
  · exact fun m => .inl ⟨_, m.rest, rfl⟩
  · exact reply _
  · exact fail _

theorem run (context : Context) (operation : Strict) (operands : List Value) :
    Tame (operation.run context operands) := by
  unfold Strict.run
  split
  · exact ofExcept _
  · exact fail _
  · exact ofExcept _
  · exact fail _
  · exact pure _
  · exact pure _
  · exact native _ _ _

end Tame

/-! ## Values in the place of operands -/

namespace Store.Holds

variable {s : Store Handler} {operands values values' : List Value}

theorem eq (h : s.Holds operands values) (h' : s.Holds operands values') : values = values' := by
  refine List.right_unique_forall₂' (fun v w w' hw hw' => ?_) h h'
  rw [hw] at hw'
  injection hw' with hw'
  injection hw'

theorem outcome? (h : s.Holds operands values) {p : PromiseId} (hp : .promise p ∈ operands) :
    ∃ v, s.outcome? p = some (.ok v) := by
  induction h with
  | nil => cases hp
  | cons hhead _ ih =>
    cases hp with
    | head => exact ⟨_, hhead⟩
    | tail _ hp => exact ih hp

theorem not_promise (hflat : s.Flat) (h : s.Holds operands values) :
    values.any Value.isPromise = false := by
  induction h with
  | nil => rfl
  | @cons v w _ _ hhead _ ih =>
    rw [List.any_cons, ih, Bool.or_false]
    cases v with
    | promise p =>
      cases w with
      | promise q => exact absurd rfl (hflat.concrete hhead q)
      | _ => rfl
    | _ =>
      cases hhead
      rfl

end Store.Holds

/-- On values an operation is run directly. -/
theorem Strict.apply_direct {E : Engine} {operation : Strict} {values : List Value}
    (h : values.any Value.isPromise = false) :
    Strict.apply E operation values = operation.run E.context values := by
  rw [Strict.apply, if_neg (by simp [h])]

/-! ## Between two turns -/

/-- With nothing in flight a gather waits for something, or has all values, or has failed. -/
theorem Collection.Inv.between {C : Collection} {m : Machine} (h : C.Inv 0 m) :
    (m.store.outcome? C.result = none ∧ (∃ p, .promise p ∈ C.operands ∧ m.store.outcome? p = none) ∧
        ∀ p e, .promise p ∈ C.operands → m.store.outcome? p ≠ some (.error e)) ∨
      (∃ values, m.store.Holds C.operands values ∧
        m.store.outcome? C.result = some (.ok (.tuple values))) ∨
      ∃ p e, .promise p ∈ C.operands ∧ m.store.outcome? p = some (.error e) ∧
        m.store.outcome? C.result = some (.error e) := by
  cases h.phase with
  | gathering g hg hr hdone hcollects hmissing hpending =>
    have hwaits : ∀ p k, (p, k) ∈ C.tokens 0 m → m.store.outcome? p = none := fun _ _ => outcome?_of_held
    refine .inl ⟨hpending, ?_, fun p e hp he => ?_⟩
    · obtain ⟨⟨p, k⟩, hmem⟩ := Multiset.exists_mem_of_ne_zero hmissing
      obtain ⟨i, -, hplace⟩ := hcollects.place p k hmem
      exact ⟨p, List.mem_of_getElem? hplace, hwaits p k hmem⟩
    · obtain ⟨i, hi⟩ := List.mem_iff_getElem?.1 hp
      rcases hcollects.filled i _ hi with ⟨p', hmem⟩ | ⟨w, -, hw⟩
      · obtain ⟨i', hk, hplace⟩ := hcollects.place p' _ hmem
        injection hk with _ hi'
        subst hi'
        cases hi.symm.trans hplace
        cases (hwaits p _ hmem).symm.trans he
      · cases he.symm.trans hw
  | gathered g o hg hdone hgives hresult =>
    cases hgives with
    | all values hvalues => exact .inr (.inl ⟨values, hvalues, hresult⟩)
    | failure p e hp he => exact .inr (.inr ⟨p, e, hp, he, hresult⟩)

/-- What has become of the result `q` of an operation that was applied to operands some of which are
promises, after a number of starts of the operation. -/
structure Lifted (context : Context) (operation : Strict) (operands : List Value) (origin : Machine)
    (q : PromiseId) (d : Nat) (m : Machine) : Prop where
  /-- As long as an operand is missing and none has failed, there is no result. -/
  waiting : (∃ p, .promise p ∈ operands ∧ m.store.outcome? p = none) →
    (∀ p e, .promise p ∈ operands → m.store.outcome? p ≠ some (.error e)) →
    d = 0 ∧ m.store.outcome? q = none
  /-- Once all operands are there, the operation has been applied to their values, at a moment when it
  had them all, and its answer is the result. -/
  computed : ∀ values, m.store.Holds operands values → d = 1 ∧
    ∃ before answer after, Evolves origin before ∧ before.store.Holds operands values ∧
      (∀ E : Engine, E.context = context →
        EvalM.outcome (Strict.apply E operation values) before = .ok answer after) ∧
      Evolves after m ∧ ((∀ r, answer = .ok (.promise r) → after.store.Has r) →
        m.store.outcome? q = m.store.look q answer)
  /-- If an operand has failed, the result has failed with the error of an operand. -/
  failed : ∀ p e, .promise p ∈ operands → m.store.outcome? p = some (.error e) →
    d = 0 ∧ ∃ p' e', .promise p' ∈ operands ∧ m.store.outcome? p' = some (.error e') ∧
      m.store.outcome? q = some (.error e')

/-- The result of an operation is derived from the gather of its operands. -/
def Collection.link (C : Collection) (context : Context) (operation : Strict) (m : Machine) : Link :=
  ⟨context, m, C.result, m.store.fresh.1, .compute operation, fun before => ∃ values,
    before.store.outcome? C.result = some (.ok (.tuple values)) ∧
      before.store.Holds C.operands values⟩

theorem Lifted.of_inv {C : Collection} {context : Context} {operation : Strict} {m₁ m : Machine}
    {d : Nat} (hC : C.Inv 0 m) (hL : (C.link context operation m₁).Inv 0 d m)
    (horigin : Evolves C.origin m₁) (hflat : C.origin.store.Flat) :
    Lifted context operation C.operands C.origin m₁.store.fresh.1 d m := by
  have haccount := hL.account fun _ _ => rfl
  rcases hC.between with ⟨hnone, ⟨p, hp, hpending⟩, hfine⟩ | ⟨values, hvalues, hresult⟩ |
    ⟨p, e, hp, he, hresult⟩
  · refine ⟨fun _ _ => haccount.pending hnone, fun values hvalues => ?_, fun p e hp he => ?_⟩
    · obtain ⟨v, hv⟩ := hvalues.outcome? hp
      cases hpending.symm.trans hv
    · exact absurd he (hfine p e hp)
  · refine ⟨fun ⟨p, hp, hpending⟩ _ => ?_, fun values' hvalues' => ?_, fun p e hp he => ?_⟩
    · obtain ⟨v, hv⟩ := hvalues.outcome? hp
      cases hpending.symm.trans hv
    · obtain rfl := hvalues.eq hvalues'
      obtain ⟨hd, answer, before, after, n, hbefore, hsource, ⟨gathered, hgathered, hholds⟩, hr, hafter,
        hq⟩ := haccount.fulfilled _ hresult
      obtain rfl : values = gathered := by
        cases hsource.symm.trans hgathered
        rfl
      have hevolves : Evolves C.origin before := horigin.trans hbefore
      have hdirect := hholds.not_promise (hevolves.flat hflat)
      refine ⟨hd, before, answer, after, hevolves, hholds, fun E hE => ?_, hafter, hq⟩
      rw [Strict.apply_direct hdirect, hE]
      change EvalM.outcome (operation.run (engine context n).context values) before = _ at hr
      rwa [engine_context] at hr
    · obtain ⟨v, hv⟩ := hvalues.outcome? hp
      cases hv.symm.trans he
  · refine ⟨fun _ hfine => absurd he (hfine p e hp), fun values hvalues => ?_, fun _ _ _ _ => ?_⟩
    · obtain ⟨v, hv⟩ := hvalues.outcome? hp
      cases hv.symm.trans he
    · obtain ⟨hd, hq⟩ := haccount.failed e hresult
      exact ⟨hd, p, e, hp, he, hq⟩

/-! ## Applying an operation -/

/-- Deriving the result comes to an end, unless the operands are there and the operation panics on
them. -/
theorem Strict.derive_cases {m : Machine} (hflat : m.store.Flat) (a : PromiseId) (operation : Strict)
    (context : Context) (n : Nat) :
    (∃ m₁, Promise.derive (engine context (n + 2)).deliver a (.compute operation) m =
      .ok m.store.fresh.1 m₁) ∨
    ∃ v payload after, m.store.outcome? a = some (.ok v) ∧
      operation.run context v.elements (m.withStore m.store.fresh.2) = .error (.panic payload) after ∧
      Promise.derive (engine context (n + 2)).deliver a (.compute operation) m =
        .error (.panic payload) after := by
  by_cases hv : ∃ v, m.store.outcome? a = some (.ok v)
  · obtain ⟨v, hv⟩ := hv
    have hhandle : (engine context (n + 1)).handle (.compute operation) (.ok v) =
        EvalM.outcome (operation.run context v.elements) := by
      rw [Engine.handle, engine_context]
    rw [Promise.derive_settled hv, hhandle]
    rcases Tame.run context operation v.elements (m.withStore m.store.fresh.2) with
      ⟨o, rest, hr⟩ | ⟨payload, rest, hr⟩
    · have hfresh : m.store.fresh.2.Flat := hflat.of_state_eq (Store.state_fresh _)
      obtain ⟨s, hs⟩ := Promise.fulfil_quiet (m := ⟨m.store.fresh.2, rest⟩) hfresh
        m.store.state_made o context n
      exact .inl ⟨_, (EvalM.bind_of_ok hr).trans (EvalM.bind_of_ok hs)⟩
    · have hpanic : EvalM.outcome (operation.run context v.elements) (m.withStore m.store.fresh.2) =
          .error (.panic payload) ⟨m.store.fresh.2, rest⟩ := by
        rw [EvalM.outcome, hr]
        rfl
      exact .inr ⟨v, payload, _, hv, hr, EvalM.bind_of_error hpanic⟩
  · obtain ⟨s, hs, -⟩ := Promise.derive_held (.compute operation) (fun _ _ => rfl)
      (fun v h => hv ⟨v, h⟩) context (n + 1)
    exact .inl ⟨_, hs⟩

namespace Collection

variable {C : Collection} {context : Context} {operation : Strict} {F : InFlight} {m m₁ : Machine}

/-- The result has a value when all operands are there. -/
theorem Inv.ready {v : Value} (h : C.Inv F m) (hv : m.store.outcome? C.result = some (.ok v)) :
    ∃ values, m.store.outcome? C.result = some (.ok (.tuple values)) ∧
      m.store.Holds C.operands values := by
  cases h.phase with
  | gathering g hg hr hdone hcollects hmissing hpending => cases hpending.symm.trans hv
  | gathered g o hg hdone hgives ho =>
    cases hgives with
    | all values hvalues => exact ⟨values, ho, hvalues⟩
    | failure p e => cases ho.symm.trans hv

variable (C context operation m₁) in
/-- The gather and the result of the operation together. -/
def lifting : Protocol context m₁.store.fresh.1 :=
  (C.link context operation m₁).protocol (C.protocol context m₁.store.fresh.1)
    fun h hv => Inv.ready h hv

/-- After the gather has been started, the result is derived from it. -/
theorem inv_lifting (hm : m₁.Sound) (h : C.Inv 0 m₁) (context : Context) (operation : Strict) :
    (C.lifting context operation m₁).Inv {(C.result, .derive m₁.store.fresh.1 (.compute operation))} 0
      (m₁.withStore m₁.store.fresh.2) := by
  have hne : m₁.store.fresh.1 ≠ C.result := fun he =>
    m₁.store.not_has_fresh (he.symm ▸ h.hidden.has)
  have hpassed := h.passed (passed_fresh m₁)
  have hk : (Continuation.derive m₁.store.fresh.1 (Handler.compute operation)).settles C.result =
      false :=
    beq_false_of_ne hne
  refine ⟨hm.link h.hidden.has context (.compute operation) _, ⟨hpassed.hidden, hpassed.sources,
    hpassed.started, ?_⟩, ?_⟩
  · exact (held_cons_of_false (F := 0) hk).trans hpassed.settlers
  · exact hpassed.phase.step .refl (held_cons_of_false (F := 0) rfl) rfl rfl

end Collection

theorem Strict.apply_promises {E : Engine} {operation : Strict} {operands : List Value} {m m₁ : Machine}
    {a : PromiseId} (hany : operands.any Value.isPromise = true)
    (hall : Promise.all E.deliver operands m = .ok a m₁) :
    Strict.apply E operation operands m = (do
      let q ← Promise.derive E.deliver a (.compute operation)
      return .promise q : EvalM Value) m₁ := by
  rw [Strict.apply, if_pos hany]
  exact EvalM.bind_of_ok hall

/-- An operation that is applied to operands of which some are promises answers with a promise, and
whatever a host lets happen then, apart from settling by hand what the operation has made, the promise
agrees with the operation applied to values. If all operands are there already and the operation panics
on them, then so it does here. -/
theorem Strict.lifted_agrees {m : Machine} (hm : m.Sound) (context : Context) (operation : Strict)
    {operands : List Value} (hany : operands.any Value.isPromise = true)
    (hhas : ∀ p, .promise p ∈ operands → m.store.Has p) (n : Nat) :
    (∃ q m₁ m₁',
      Strict.apply (engine context (n + 2)) operation operands m = .ok (.promise q) m₁ ∧
      Strict.apply (observed q context (n + 2)) operation operands m = .ok (.promise q) m₁' ∧
      Throughout context q (fun p => m₁.store.Has p ∧ ¬m.store.Has p)
        (Lifted context operation operands m q) m₁ m₁') ∨
    ∃ values before payload after, Evolves m before ∧ before.store.Holds operands values ∧
      (∀ E : Engine, E.context = context →
        Strict.apply E operation values before = .error (.panic payload) after) ∧
      Strict.apply (engine context (n + 2)) operation operands m = .error (.panic payload) after := by
  obtain ⟨m₁, hall, hC⟩ := Collection.start_all hm hany hhas
  have hall₁ := hall _ (gathers_engine _ context (n + 1))
  have hm₁ : m₁.Sound := hm.all hall₁
  have hevolves : Evolves m m₁ := hC.hidden.evolves
  let C := Collection.start m operands
  let q := m₁.store.fresh.1
  have hcounts : (C.lifting context operation m₁).Counts := Link.counts
  rcases Strict.derive_cases hm₁.flat C.result operation context n with
    ⟨m₂, hderive⟩ | ⟨v, payload, after, hv, hrun, hderive⟩
  · have htally := Protocol.derives hcounts rfl (Collection.inv_lifting hm₁ hC context operation) (n + 2)
    rw [show Promise.derive (engine context (n + 2)).deliver C.result (.compute operation) m₁ =
      .ok q m₂ from hderive] at htally
    obtain ⟨d, m₂', hobserved, hinv, twin⟩ := htally.of_ok
    refine .inl ⟨q, m₂, m₂', ?_, ?_, Protocol.throughout hcounts (fun p hp => ?_)
      (fun d m hinv => .of_inv hinv.2 hinv.1 hevolves hm.flat) hinv.1.hidden.flat hinv twin⟩
    · rw [Strict.apply_promises hany hall₁]
      exact EvalM.bind_of_ok hderive
    · rw [Strict.apply_promises hany (hall _ (gathers_observed _ q context (n + 1)))]
      exact EvalM.bind_of_ok hobserved
    · -- what the operation has made is its result and the promise of the gather
      rcases hp with rfl | rfl
      · exact ⟨hinv.1.hidden.has, fun hq => m₁.store.not_has_fresh (hevolves.has hq)⟩
      · exact ⟨hinv.2.hidden.has, m.store.not_has_fresh⟩
  · obtain ⟨values, hvalues, hholds⟩ := hC.ready hv
    cases hv.symm.trans hvalues
    have hmade : Evolves m₁ (m₁.withStore m₁.store.fresh.2) := .single (.made m₁)
    refine .inr ⟨values, _, payload, after, hevolves.trans hmade, hmade.holds hholds,
      fun E hE => ?_, ?_⟩
    · rw [Strict.apply_direct (hholds.not_promise hm₁.flat), hE]
      exact hrun
    · rw [Strict.apply_promises hany hall₁]
      exact EvalM.bind_of_error hderive

theorem Strict.lifted_agrees_difference :
    ∃ q m₁ m₁' m₂ m₂',
      Strict.apply (engine Session.expecting.context 2) (.binary .sub) [.promise ⟨0⟩, .int 3]
        Session.expecting.machine = .ok (.promise q) m₁ ∧
      Strict.apply (observed q Session.expecting.context 2) (.binary .sub) [.promise ⟨0⟩, .int 3]
        Session.expecting.machine = .ok (.promise q) m₁' ∧
      Turn.runAll (engine Session.expecting.context 5) [.fulfil ⟨0⟩ (.ok (.int 5))] m₁ = .ok () m₂ ∧
      Turn.runAll (observed q Session.expecting.context 5) [.fulfil ⟨0⟩ (.ok (.int 5))] m₁' =
        .ok () m₂' ∧
      Twin 1 m₂ m₂' ∧ m₂.store.outcome? q = some (.ok (.int 2)) := by
  have hhas : ∀ p, .promise p ∈ [Value.promise ⟨0⟩, .int 3] → Session.expecting.machine.store.Has p := by
    intro p hp
    cases hp with
    | head => exact Nat.zero_lt_one
    | tail _ hp => cases hp with | tail _ hp => cases hp
  rcases Strict.lifted_agrees Session.sound_expecting Session.expecting.context (.binary .sub) rfl
    hhas 0 with
    ⟨q, m₁, m₁', happly, hobserved, hturns⟩ | ⟨_, _, payload, after, _, _, _, hpanic⟩
  · cases happly
    obtain ⟨-, hturns⟩ := hturns [.fulfil ⟨0⟩ (.ok (.int 5))] fun p o hmem hp => by
      cases hmem with
      | head => exact hp.2 Nat.zero_lt_one
      | tail _ hmem => cases hmem
    obtain ⟨d, m₂', hrun, twin, hlifted⟩ := hturns 5 _ rfl
    obtain ⟨rfl, before, answer, after, -, -, hdirect, -, hresult⟩ :=
      hlifted.computed [.int 5, .int 3] (.cons rfl (.cons rfl .nil))
    refine ⟨_, _, m₁', _, m₂', rfl, hobserved, rfl, hrun, twin, ?_⟩
    have hanswer : EStateM.Result.ok (.ok (.int 2)) before = .ok answer after :=
      hdirect (engine _ 0) rfl
    cases hanswer
    exact hresult nofun
  · cases hpanic

end Deferral
