import Deferral.Promise.Cascade

/-!
# What each step on the store does

Each indivisible step changes the state of at most one promise. `register_cases` and `settle_cases`
say which of its two answers a step gives and what the store is afterwards; the `state_` lemmas give
the state of every promise after it. A promise that was never made has the state of a new one, so
making a promise changes no state at all (`state_fresh`).

An outcome is `Concrete` if it is no promise: those are the outcomes a promise can be settled with, and
`Promise.fulfil_concrete` and its companions say what becomes of any other.
-/

set_option autoImplicit false

namespace Deferral

namespace PromiseState

variable {η : Type}

/-- A state is pending with continuations or that of an outcome. -/
theorem pending_or_ofOutcome (st : PromiseState η) :
    (∃ ks, st = .pending ks) ∨ ∃ o, st = .ofOutcome o := by
  cases st with
  | pending ks => exact .inl ⟨ks, rfl⟩
  | fulfilled v => exact .inr ⟨.ok v, rfl⟩
  | failed e => exact .inr ⟨.error e, rfl⟩

@[simp] theorem outcome?_ofOutcome (o : Outcome) :
    (ofOutcome o : PromiseState η).outcome? = some o := by
  cases o <;> rfl

theorem ofOutcome_ne_pending (o : Outcome) (ks : List (Continuation η)) :
    (ofOutcome o : PromiseState η) ≠ .pending ks := by
  cases o <;> simp [ofOutcome]

theorem ofOutcome_injective {o o' : Outcome}
    (h : (ofOutcome o : PromiseState η) = ofOutcome o') : o = o' := by
  simpa using congrArg outcome? h

end PromiseState

namespace Store

variable {η : Type} {s : Store η} {p q : PromiseId}

/-- The promise has been made. -/
def Has (s : Store η) (p : PromiseId) : Prop := p.index < s.promises.size

theorem state_of_not_has (h : ¬s.Has p) : s.state p = .pending [] := by
  rw [state, Array.getElem?_eq_none (by simpa [Has] using h), Option.getD_none]

theorem outcome?_of_state {o : Outcome} (h : s.state p = .ofOutcome o) : s.outcome? p = some o := by
  rw [outcome?, h, PromiseState.outcome?_ofOutcome]

theorem state_of_outcome? {o : Outcome} (h : s.outcome? p = some o) : s.state p = .ofOutcome o := by
  rcases (s.state p).pending_or_ofOutcome with ⟨ks, hks⟩ | ⟨o', ho'⟩
  · rw [outcome?, hks] at h
    cases h
  · rw [outcome?_of_state ho'] at h
    rw [ho', Option.some.inj h]

/-! ## Changing one state -/

theorem has_setState {x : PromiseState η} : (s.setState p x).Has q ↔ s.Has q := by
  simp [Has, setState]

theorem state_setState_self {x : PromiseState η} (h : s.Has p) : (s.setState p x).state p = x := by
  have hi : p.index < s.promises.size := h
  rw [state, setState, Array.getElem?_setIfInBounds, if_pos rfl, if_pos hi, Option.getD_some]

theorem state_setState_ne {x : PromiseState η} (h : q ≠ p) : (s.setState p x).state q = s.state q := by
  have hi : p.index ≠ q.index := fun he => h (by cases p; cases q; simp_all)
  rw [state, setState, Array.getElem?_setIfInBounds, if_neg hi, state]

theorem outcome?_setState_self (h : s.Has p) (o : Outcome) :
    (s.setState p (.ofOutcome o)).outcome? p = some o := by
  rw [outcome?, state_setState_self h, PromiseState.outcome?_ofOutcome]

theorem outcome?_setState_ne {x : PromiseState η} (h : q ≠ p) :
    (s.setState p x).outcome? q = s.outcome? q := by
  rw [outcome?, outcome?, state_setState_ne h]

/-! ## New promises and gathers -/

@[simp] theorem state_fresh (s : Store η) (p : PromiseId) : s.fresh.2.state p = s.state p := by
  rw [state, fresh, Array.getElem?_push, state]
  split
  · rename_i h
    rw [h, Array.getElem?_eq_none (Nat.le_refl _)]
    rfl
  · rfl

theorem has_fresh : s.fresh.2.Has q ↔ s.Has q ∨ q = s.fresh.1 := by
  obtain ⟨i⟩ := q
  simp only [Has, fresh, Array.size_push, PromiseId.mk.injEq]
  omega

theorem not_has_fresh (s : Store η) : ¬s.Has s.fresh.1 := by simp [Has, fresh]

@[simp] theorem state_addGather (g : Gather) (s : Store η) (p : PromiseId) :
    (s.addGather g).2.state p = s.state p := rfl

@[simp] theorem state_record (id : GatherId) (place : Nat) (o : Outcome) (s : Store η)
    (p : PromiseId) : (s.record id place o).2.state p = s.state p := by
  unfold record
  split <;> rfl

theorem outcome?_record (id : GatherId) (place : Nat) (o : Outcome) (s : Store η) (p : PromiseId) :
    (s.record id place o).2.outcome? p = s.outcome? p := by
  rw [outcome?, outcome?, state_record]

theorem size_record (id : GatherId) (place : Nat) (o : Outcome) (s : Store η) :
    (s.record id place o).2.promises.size = s.promises.size := by
  unfold record
  split <;> rfl

theorem has_record {id : GatherId} {place : Nat} {o : Outcome} :
    (s.record id place o).2.Has p ↔ s.Has p := by
  unfold record
  split <;> rfl

/-! ## Registering and settling -/

/-- A continuation waits for a pending promise; for a settled one the outcome is given back. -/
theorem register_cases (p : PromiseId) (k : Continuation η) (s : Store η) :
    (∃ ks, s.state p = .pending ks ∧
      s.register p k = (none, s.setState p (.pending (ks ++ [k])))) ∨
    ∃ o, s.state p = .ofOutcome o ∧ s.register p k = (some o, s) := by
  unfold register
  rcases (s.state p).pending_or_ofOutcome with ⟨ks, h⟩ | ⟨o, h⟩
  · exact .inl ⟨ks, h, by rw [h]⟩
  · refine .inr ⟨o, h, ?_⟩
    rw [h]
    cases o <;> rfl

theorem has_register {k : Continuation η} : (s.register p k).2.Has q ↔ s.Has q := by
  rcases register_cases p k s with ⟨ks, _, h⟩ | ⟨o, _, h⟩
  · rw [h]
    exact has_setState
  · rw [h]

/-- A pending promise is settled and gives up its continuations; a settled one stays. -/
theorem settle_cases (p : PromiseId) (o : Outcome) (s : Store η) :
    (∃ ks, s.state p = .pending ks ∧ s.settle p o = (ks, s.setState p (.ofOutcome o))) ∨
    ∃ o', s.state p = .ofOutcome o' ∧ s.settle p o = ([], s) := by
  unfold settle
  rcases (s.state p).pending_or_ofOutcome with ⟨ks, h⟩ | ⟨o', h⟩
  · exact .inl ⟨ks, h, by rw [h]⟩
  · refine .inr ⟨o', h, ?_⟩
    rw [h]
    cases o' <;> rfl

theorem has_settle {o : Outcome} : (s.settle p o).2.Has q ↔ s.Has q := by
  rcases settle_cases p o s with ⟨ks, _, h⟩ | ⟨o', _, h⟩
  · rw [h]
    exact has_setState
  · rw [h]

theorem state_settle_ne {o : Outcome} (h : q ≠ p) : (s.settle p o).2.state q = s.state q := by
  rcases settle_cases p o s with ⟨ks, _, hs⟩ | ⟨o', _, hs⟩
  · rw [hs]
    exact state_setState_ne h
  · rw [hs]

theorem settle_pending {ks : List (Continuation η)} (h : s.state p = .pending ks) (o : Outcome) :
    s.settle p o = (ks, s.setState p (.ofOutcome o)) := by
  simp only [settle, h]

end Store

/-! ## Putting outcomes into a gather -/

namespace Gather

variable (g : Gather) (i : Nat)

theorem record_of_done (h : g.done = true) (o : Outcome) : g.record i o = (g, none) := by
  simp [record, h]

theorem record_error (h : g.done = false) (e : Error) :
    g.record i (.error e) = ({ g with done := true }, some (.error e)) := by
  simp [record, h]

theorem record_last (h : g.done = false) (hlast : g.remaining - 1 = 0) (v : Value) :
    g.record i (.ok v) =
      ({ g with values := g.values.set i v, remaining := g.remaining - 1, done := true },
        some (.ok (.tuple (g.values.set i v)))) := by
  simp [record, h, hlast]

theorem record_more (h : g.done = false) (hmore : g.remaining - 1 ≠ 0) (v : Value) :
    g.record i (.ok v) =
      ({ g with values := g.values.set i v, remaining := g.remaining - 1, done := false }, none) := by
  simp [record, h, hmore]

end Gather

/-- An outcome that is an error or a value other than a promise. -/
def Concrete (o : Outcome) : Prop := ∀ q, o ≠ .ok (.promise q)

theorem concrete_or_promise (o : Outcome) : Concrete o ∨ ∃ q, o = .ok (.promise q) := by
  by_cases h : ∃ q, o = .ok (.promise q)
  · exact .inr h
  · exact .inl fun q hq => h ⟨q, hq⟩

theorem concrete_error (e : Error) : Concrete (.error e) := fun _ h => by cases h

/-- Whatever a gather is completed with is concrete. -/
theorem Gather.concrete_of_record {g : Gather} {place : Nat} {o combined : Outcome}
    (h : (g.record place o).2 = some combined) : Concrete combined := by
  unfold Gather.record at h
  split at h
  · cases h
  · cases o with
    | ok value =>
      dsimp only at h
      split at h
      · obtain rfl := Option.some.inj h
        exact fun q hq => by cases hq
      · cases h
    | error e =>
      obtain rfl := Option.some.inj h
      exact concrete_error e

theorem Store.concrete_of_record {η : Type} {s : Store η} {id : GatherId} {place : Nat} {o : Outcome}
    {found : PromiseId × Outcome} (h : (s.record id place o).1 = some found) : Concrete found.2 := by
  unfold Store.record at h
  split at h
  · cases h
  · obtain ⟨combined, hg, rfl⟩ := Option.map_eq_some_iff.1 h
    exact Gather.concrete_of_record hg

namespace Promise

variable {ε η σ : Type} (deliver : Continuation η → Outcome → WorldM ε η σ Unit)

theorem fulfil_concrete {o : Outcome} (h : Concrete o) (p : PromiseId) :
    fulfil deliver p o = settle deliver p o := by
  unfold fulfil
  split
  · exact absurd rfl (h _)
  · rfl

theorem fulfil_self (p : PromiseId) :
    fulfil deliver p (.ok (.promise p)) =
      settle deliver p (.error (.resolution .selfFulfilment)) := by
  simp [fulfil]

theorem fulfil_other {p q : PromiseId} (h : q ≠ p) :
    fulfil deliver p (.ok (.promise q)) = onComplete deliver q (.adopt p) := by
  simp [fulfil, h]

/-! An operand of a gather comes in, which decides it or not. -/

theorem deliverStep_gather_none (handle : η → Outcome → WorldM ε η σ Outcome) {id : GatherId}
    {place : Nat} {o : Outcome} {w : World η σ} (h : (w.store.record id place o).1 = none) :
    deliverStep deliver handle (.gather id place) o w =
      .ok () { w with store := (w.store.record id place o).2 } := by
  simp only [deliverStep, onStore, Bind.bind, EStateM.bind, h]
  rfl

theorem deliverStep_gather_some (handle : η → Outcome → WorldM ε η σ Outcome) {id : GatherId}
    {place : Nat} {o : Outcome} {w : World η σ} {found : PromiseId × Outcome}
    (h : (w.store.record id place o).1 = some found) :
    deliverStep deliver handle (.gather id place) o w =
      fulfil deliver found.1 found.2 { w with store := (w.store.record id place o).2 } := by
  simp only [deliverStep, onStore, Bind.bind, EStateM.bind, h]

end Promise

end Deferral
