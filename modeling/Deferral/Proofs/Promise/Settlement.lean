import Deferral.Proofs.Promise.Law

/-!
# A promise is settled once, and never with a promise

Two invariants of every run, at every point of it:

* the outcome of a settled promise never changes (`outcome?_replay`: no event changes one);
* no promise is fulfilled with a promise (`Store.Flat`), since a fulfilment with a promise becomes an
  adoption, and what an adopted promise hands on is flat already.

`flatSpec` adds what follows for the receivers: every continuation and every handler is given an error
or a value that is no promise. `settled_once_and_flat` puts the three together for any routine with any
handlers, from the empty store, at every prefix of its trace.
-/

set_option autoImplicit false

namespace Deferral

variable {η σ α : Type}

/-! ## Outcomes stay -/

theorem Store.outcome?_register {s : Store η} {p q : PromiseId} {o : Outcome} (k : Continuation η)
    (h : s.outcome? p = some o) : (s.register q k).2.outcome? p = some o := by
  rcases register_cases q k s with ⟨ks, hq, hs⟩ | ⟨o', hq, hs⟩
  · have hne : p ≠ q := by
      rintro rfl
      rw [outcome?, hq] at h
      cases h
    rw [hs, outcome?_setState_ne hne, h]
  · rw [hs, h]

theorem Store.outcome?_settle {s : Store η} {p q : PromiseId} {o : Outcome} (o' : Outcome)
    (h : s.outcome? p = some o) : (s.settle q o').2.outcome? p = some o := by
  rcases settle_cases q o' s with ⟨ks, hq, hs⟩ | ⟨o'', hq, hs⟩
  · have hne : p ≠ q := by
      rintro rfl
      rw [outcome?, hq] at h
      cases h
    rw [hs, outcome?_setState_ne hne, h]
  · rw [hs, h]

/-- No event changes the outcome of a settled promise. -/
theorem Event.outcome?_replay {s : Store η} {p : PromiseId} {o : Outcome} (e : Event η)
    (h : s.outcome? p = some o) : (e.replay s).outcome? p = some o := by
  cases e with
  | made q => rw [replay, Store.outcome?, Store.state_fresh, ← Store.outcome?, h]
  | gathering g => rw [replay, Store.outcome?, Store.state_addGather, ← Store.outcome?, h]
  | recorded id place o' => rw [replay, Store.outcome?, Store.state_record, ← Store.outcome?, h]
  | handled f o' => exact h
  | stage q what =>
    cases what with
    | registered k => exact Store.outcome?_register k h
    | settled o' => exact Store.outcome?_settle o' h
    | invoked k o' => exact h
    | drained => exact h
    | answered k o' => exact h

theorem Event.outcome?_replayAll {p : PromiseId} {o : Outcome} :
    ∀ (t : List (Event η)) {s : Store η}, s.outcome? p = some o → (replayAll t s).outcome? p = some o
  | [], _, h => h
  | e :: t, _, h => outcome?_replayAll t (e.outcome?_replay h)

/-! ## No promise holds a promise -/

/-- Every outcome in the store is concrete. -/
def Store.Flat (s : Store η) : Prop := ∀ p o, s.state p = .ofOutcome o → Concrete o

theorem Store.flat_empty : (empty : Store η).Flat := by
  intro p o h
  rw [state_of_not_has (by simp [Has, empty])] at h
  exact absurd h.symm (PromiseState.ofOutcome_ne_pending o [])

theorem Store.Flat.of_state_eq {s s' : Store η} (h : s.Flat) (he : ∀ p, s'.state p = s.state p) :
    s'.Flat := by
  intro p o hp
  exact h p o (by rw [← he p, hp])

theorem Store.Flat.setState {s : Store η} (h : s.Flat) {p : PromiseId} {x : PromiseState η}
    (hx : ∀ o, x = .ofOutcome o → Concrete o) : (s.setState p x).Flat := by
  intro q o hq
  by_cases hqp : q = p
  · subst hqp
    by_cases hq' : s.Has q
    · rw [state_setState_self hq'] at hq
      exact hx o hq
    · rw [state_of_not_has (fun hh => hq' (has_setState.1 hh))] at hq
      exact absurd hq.symm (PromiseState.ofOutcome_ne_pending o [])
  · rw [state_setState_ne hqp] at hq
    exact h q o hq

theorem Store.Flat.register {s : Store η} (h : s.Flat) (p : PromiseId) (k : Continuation η) :
    (s.register p k).2.Flat := by
  rcases register_cases p k s with ⟨ks, _, hs⟩ | ⟨o, _, hs⟩
  · rw [hs]
    exact h.setState fun o ho => absurd ho.symm (PromiseState.ofOutcome_ne_pending o _)
  · rw [hs]
    exact h

theorem Store.Flat.settle {s : Store η} (h : s.Flat) (p : PromiseId) {o : Outcome}
    (ho : Concrete o) : (s.settle p o).2.Flat := by
  rcases settle_cases p o s with ⟨ks, _, hs⟩ | ⟨o', _, hs⟩
  · rw [hs]
    exact h.setState fun o' ho' => PromiseState.ofOutcome_injective ho' ▸ ho
  · rw [hs]
    exact h

theorem Store.Flat.isPromise_eq_false {s : Store η} (h : s.Flat) {p : PromiseId} {v : Value}
    (hp : s.state p = .fulfilled v) : v.isPromise = false := by
  have hc := h p (.ok v) hp
  cases v with
  | promise q => exact absurd rfl (hc q)
  | _ => rfl

/-- Whatever an event hands on is concrete. -/
def Event.Flat : Event η → Prop
  | .stage _ (.settled o) => Concrete o
  | .stage _ (.invoked _ o) => Concrete o
  | .stage _ (.answered _ o) => Concrete o
  | .handled _ o => Concrete o
  | _ => True

theorem Event.flat_replay {s : Store η} {e : Event η} (hs : s.Flat) (he : e.Flat) :
    (e.replay s).Flat := by
  cases e with
  | made q => exact hs.of_state_eq (Store.state_fresh s)
  | gathering g => exact hs.of_state_eq (Store.state_addGather g s)
  | recorded id place o => exact hs.of_state_eq (Store.state_record id place o s)
  | handled f o => exact hs
  | stage q what =>
    cases what with
    | registered k => exact hs.register q k
    | settled o => exact hs.settle q he
    | invoked k o => exact hs
    | drained => exact hs
    | answered k o => exact hs

theorem Event.flat_replayAll : ∀ (t : List (Event η)) {s : Store η}, s.Flat → (∀ e ∈ t, e.Flat) →
    (replayAll t s).Flat
  | [], _, hs, _ => hs
  | e :: t, _, hs, ht =>
    flat_replayAll t (flat_replay hs (ht e (.head _))) fun e' he' => ht e' (.tail _ he')

/-! ## The law -/

/-- The trace leads to the store, and hands on nothing but concrete outcomes. -/
def flatSpec (η : Type) : TraceSpec η where
  Inv := Store.Flat
  Fine := Concrete
  Rel _ s t s' := s' = Event.replayAll t s ∧ ∀ e ∈ t, e.Flat
  refl _ _ := ⟨rfl, by simp⟩
  trans := by
    rintro b s t s' u s'' ⟨rfl, ht⟩ ⟨rfl, hu⟩
    refine ⟨(Event.replayAll_append t u s).symm, fun e he => ?_⟩
    rcases List.mem_append.1 he with h | h
    · exact ht e h
    · exact hu e h

theorem flatSpec_deliverAll {deliver : Continuation η → Outcome → Recorded η σ Unit}
    (hd : ∀ k o, Concrete o → (flatSpec η).Obeys (deliver k o)) (p : PromiseId) {o : Outcome}
    (ho : Concrete o) : ∀ ks, (flatSpec η).Obeys (Recorded.deliverAll deliver p ks o)
  | [] => TraceSpec.obeys_note fun _ _ => ⟨rfl, by simp [Event.Flat]⟩
  | k :: ks =>
    TraceSpec.obeys_bind (TraceSpec.obeys_note fun _ _ => ⟨rfl, by simpa [Event.Flat] using ho⟩)
      fun _ => TraceSpec.obeys_bind (hd k o ho) fun _ => flatSpec_deliverAll hd p ho ks

theorem flatSpec_settle {deliver : Continuation η → Outcome → Recorded η σ Unit}
    (hd : ∀ k o, Concrete o → (flatSpec η).Obeys (deliver k o)) (p : PromiseId) (o : Outcome)
    (ho : Concrete o) : (flatSpec η).Obeys (Recorded.settle deliver p o) := by
  refine TraceSpec.obeys_bind (fun w hw => ?_) fun due => ?_
  · unfold Recorded.beginSettle
    split
    · exact ⟨Store.Flat.settle hw p ho, rfl, by simpa [Event.Flat] using ho⟩
    · exact ⟨hw, (flatSpec η).refl true w.store⟩
  · cases due with
    | none => exact TraceSpec.obeys_pure ()
    | some ks => exact flatSpec_deliverAll hd p ho ks

theorem flatSpec_law : Law (flatSpec η) where
  fine_of_state hs hp := hs _ _ hp
  made hs := ⟨hs.of_state_eq (Store.state_fresh _), rfl, by simp [Event.Flat]⟩
  gathering g hs := ⟨hs.of_state_eq (Store.state_addGather g _), rfl, by simp [Event.Flat]⟩
  recorded id place _ hs _ :=
    ⟨hs.of_state_eq (Store.state_record id place _ _), rfl, by simp [Event.Flat]⟩
  handled _ _ _ ho := ⟨rfl, fun _ he => List.mem_singleton.1 he ▸ ho⟩
  registered k hs _ := ⟨hs.register _ k, rfl, by simp [Event.Flat]⟩
  answered _ hs hp := ⟨rfl, by simpa [Event.Flat] using hs _ _ hp⟩
  settle hd p o ho := flatSpec_settle hd p o ho

/-- In every run of promise operations, with handlers that perform promise operations themselves, and
at every point of it: a settled promise keeps its outcome, no promise is fulfilled with a promise, and
continuations and handlers are given concrete outcomes only. The stores of the run are those the
prefixes of its trace lead to, the last of them the store in which the run ends. -/
theorem settled_once_and_flat (handle : η → Outcome → Routine η σ Outcome) (n : Nat)
    (r : Routine η σ α) (x : σ) :
    let trace := (r.record handle n ⟨.empty, x⟩).2
    let storeAt := fun i => Event.replayAll (trace.take i) .empty
    (∀ i j p o, i ≤ j → (storeAt i).outcome? p = some o → (storeAt j).outcome? p = some o) ∧
    (∀ i p v, (storeAt i).state p = .fulfilled v → v.isPromise = false) ∧
    (∀ p k o, .stage p (.invoked k o) ∈ trace ∨ .stage p (.answered k o) ∈ trace → Concrete o) ∧
    (∀ h o, .handled h o ∈ trace → Concrete o) ∧
    storeAt trace.length = (finalWorld (r.perform handle n ⟨.empty, x⟩)).store := by
  intro trace storeAt
  obtain ⟨-, hstore, hflat⟩ := flatSpec_law.record handle n r ⟨.empty, x⟩ Store.flat_empty
  refine ⟨fun i j p o hij h => ?_, fun i p v h => ?_, fun p k o h => ?_, fun h o ho => ?_, ?_⟩
  · have hsplit : trace.take j = trace.take i ++ (trace.take j).drop i := by
      have := List.take_append_drop i (trace.take j)
      rw [List.take_take, Nat.min_eq_left hij] at this
      exact this.symm
    have := Event.outcome?_replayAll ((trace.take j).drop i) h
    rwa [← Event.replayAll_append, ← hsplit] at this
  · have hs : (storeAt i).Flat :=
      Event.flat_replayAll _ Store.flat_empty fun e he => hflat e (List.mem_of_mem_take he)
    exact hs.isPromise_eq_false h
  · rcases h with h | h
    · exact hflat _ h
    · exact hflat _ h
  · exact hflat _ ho
  · rw [← Routine.record_fst, hstore]
    show Event.replayAll (trace.take trace.length) .empty = _
    rw [List.take_length]

end Deferral
