import Mathlib.Algebra.BigOperators.Intervals
import Deferral.Proofs.Promise.Steps

/-!
# What waits in a store

`Store.waits` collects the continuations that wait for promises, each with the promise it waits for. As
a multiset it forgets in which order they wait, and then each step on the store moves them in a simple
way: registering adds one (`waits_register`), settling takes away those of one promise
(`waits_settle`), and nothing else makes a difference. What has been taken away is *in flight* until it
has run.
-/

set_option autoImplicit false

namespace Deferral

/-- The continuations that wait in a state. -/
def PromiseState.waiting {η : Type} : PromiseState η → List (Continuation η)
  | .pending ks => ks
  | _ => []

/-- Continuations together with the promise whose outcome they are for. -/
def Continuation.awaiting {η : Type} (p : PromiseId) (ks : List (Continuation η)) :
    Multiset (PromiseId × Continuation η) :=
  ↑(ks.map fun k => (p, k))

namespace Store

variable {η : Type} {s s' : Store η} {p : PromiseId} {k : Continuation η}

/-- The continuations that wait, each with the promise it waits for. -/
def waits (s : Store η) : Multiset (PromiseId × Continuation η) :=
  ∑ i ∈ Finset.range s.promises.size, Continuation.awaiting ⟨i⟩ (s.state ⟨i⟩).waiting

theorem waits_congr (hsize : s'.promises.size = s.promises.size)
    (hstate : ∀ p, s'.state p = s.state p) : s'.waits = s.waits := by
  simp only [waits, hsize, hstate]

@[simp] theorem waits_addGather (g : Gather) (s : Store η) : (s.addGather g).2.waits = s.waits :=
  waits_congr rfl fun _ => rfl

@[simp] theorem waits_record (id : GatherId) (place : Nat) (o : Outcome) (s : Store η) :
    (s.record id place o).2.waits = s.waits :=
  waits_congr (size_record id place o s) (state_record id place o s)

@[simp] theorem waits_fresh (s : Store η) : s.fresh.2.waits = s.waits := by
  have hsize : s.fresh.2.promises.size = s.promises.size + 1 := by simp [fresh]
  have hnew : s.state ⟨s.promises.size⟩ = .pending [] := state_of_not_has (by simp [Has])
  simp only [waits, hsize, Finset.sum_range_succ, state_fresh, hnew]
  exact add_zero _

theorem waits_setState (h : s.Has p) (x : PromiseState η) :
    (s.setState p x).waits + Continuation.awaiting p (s.state p).waiting =
      s.waits + Continuation.awaiting p x.waiting := by
  obtain ⟨j⟩ := p
  have hsize : (s.setState ⟨j⟩ x).promises.size = s.promises.size := by simp [setState]
  have hmem : j ∈ Finset.range s.promises.size := Finset.mem_range.2 h
  have hsame : ∀ i ∈ (Finset.range s.promises.size).erase j,
      Continuation.awaiting ⟨i⟩ ((s.setState ⟨j⟩ x).state ⟨i⟩).waiting =
        Continuation.awaiting ⟨i⟩ (s.state ⟨i⟩).waiting := by
    intro i hi
    have hne : (⟨i⟩ : PromiseId) ≠ ⟨j⟩ := fun he => (Finset.mem_erase.1 hi).1 (PromiseId.mk.inj he)
    rw [state_setState_ne hne]
  rw [waits, waits, hsize, ← Finset.add_sum_erase _ _ hmem, ← Finset.add_sum_erase _ _ hmem,
    Finset.sum_congr rfl hsame, state_setState_self h]
  ac_rfl

/-- Registering with a pending promise adds one continuation. -/
theorem waits_register (h : s.Has p) {ks : List (Continuation η)} (hp : s.state p = .pending ks) :
    (s.setState p (.pending (ks ++ [k]))).waits = (p, k) ::ₘ s.waits := by
  have hset := waits_setState h (.pending (ks ++ [k]))
  have hsplit : Continuation.awaiting p (ks ++ [k]) = (p, k) ::ₘ Continuation.awaiting p ks := by
    rw [Continuation.awaiting, List.map_append, ← Multiset.coe_add, add_comm]
    rfl
  rw [hp, PromiseState.waiting, PromiseState.waiting, hsplit, Multiset.add_cons, ← Multiset.cons_add]
    at hset
  exact add_right_cancel hset

/-- Settling a pending promise takes away what waits for it. -/
theorem waits_settle (h : s.Has p) {ks : List (Continuation η)} (hp : s.state p = .pending ks)
    (o : Outcome) : (s.setState p (.ofOutcome o)).waits + Continuation.awaiting p ks = s.waits := by
  have hset := waits_setState h (.ofOutcome o)
  have hnone : (PromiseState.ofOutcome o : PromiseState η).waiting = [] := by cases o <;> rfl
  rw [hp, PromiseState.waiting, hnone] at hset
  exact hset.trans (add_zero _)

theorem setState_of_not_has (h : ¬s.Has p) (x : PromiseState η) : s.setState p x = s := by
  rw [setState, Array.setIfInBounds_eq_of_size_le (by simpa [Has] using h)]

/-- Registering settles nothing. -/
theorem outcome?_register_eq {ks : List (Continuation η)} (h : s.state p = .pending ks)
    (t : PromiseId) : (s.setState p (.pending (ks ++ [k]))).outcome? t = s.outcome? t := by
  by_cases ht : t = p
  · subst ht
    by_cases hp : s.Has t
    · rw [outcome?, outcome?, state_setState_self hp, h]
      rfl
    · rw [setState_of_not_has hp]
  · exact outcome?_setState_ne ht

/-- At most the continuation itself is added, whatever it is registered with. -/
theorem waits_register_le (p : PromiseId) (k : Continuation η) (s : Store η) :
    (s.register p k).2.waits ≤ (p, k) ::ₘ s.waits := by
  rcases register_cases p k s with ⟨ks, hp, hs⟩ | ⟨o, hp, hs⟩
  · rw [hs]
    by_cases hhas : s.Has p
    · exact (waits_register hhas hp).le
    · rw [setState_of_not_has hhas]
      exact Multiset.le_cons_self _ _
  · rw [hs]
    exact Multiset.le_cons_self _ _

/-- What waits no longer is due. -/
theorem waits_settle_add (p : PromiseId) (o : Outcome) (s : Store η) :
    (s.settle p o).2.waits + Continuation.awaiting p (s.settle p o).1 = s.waits := by
  rcases settle_cases p o s with ⟨ks, hp, hs⟩ | ⟨o', hp, hs⟩
  · rw [hs]
    by_cases hhas : s.Has p
    · exact waits_settle hhas hp o
    · obtain rfl := PromiseState.pending.inj (hp.symm.trans (state_of_not_has hhas))
      rw [setState_of_not_has hhas]
      exact add_zero _
  · rw [hs]
    exact add_zero _

/-- What is due is due on an outcome that is known. -/
theorem isSome_outcome?_of_mem_settle {o : Outcome} (h : k ∈ (s.settle p o).1) :
    ((s.settle p o).2.outcome? p).isSome := by
  rcases settle_cases p o s with ⟨ks, hp, hs⟩ | ⟨o', hp, hs⟩
  · rw [hs] at h ⊢
    by_cases hhas : s.Has p
    · rw [outcome?, state_setState_self hhas, PromiseState.outcome?_ofOutcome]
      rfl
    · obtain rfl := PromiseState.pending.inj (hp.symm.trans (state_of_not_has hhas))
      cases h
  · rw [hs] at h
    cases h

theorem mem_waits : (p, k) ∈ s.waits ↔ ∃ ks, s.state p = .pending ks ∧ k ∈ ks := by
  obtain ⟨j⟩ := p
  simp only [waits, Multiset.mem_sum, Finset.mem_range, Continuation.awaiting, Multiset.mem_coe,
    List.mem_map, Prod.mk.injEq, PromiseId.mk.injEq]
  constructor
  · rintro ⟨i, -, k', hk', rfl, rfl⟩
    cases hi : s.state ⟨i⟩ with
    | pending ks => exact ⟨ks, rfl, by rwa [hi] at hk'⟩
    | fulfilled v => simp [hi, PromiseState.waiting] at hk'
    | failed e => simp [hi, PromiseState.waiting] at hk'
  · rintro ⟨ks, hs, hk⟩
    refine ⟨j, ?_, k, ?_, rfl, rfl⟩
    · by_contra hj
      rw [state_of_not_has hj] at hs
      obtain rfl := PromiseState.pending.inj hs
      cases hk
    · rwa [hs]

end Store

namespace Promise

theorem length_places_le (j : Nat) (xs : List Value) : (places j xs).length ≤ xs.length := by
  induction xs generalizing j with
  | nil => exact Nat.le_refl _
  | cons x rest ih =>
    have := ih (j + 1)
    cases x <;> simp only [places, List.length_cons] <;> omega

theorem mem_places {i j : Nat} {p : PromiseId} {xs : List Value} :
    (i, p) ∈ places j xs ↔ ∃ l, i = j + l ∧ xs[l]? = some (.promise p) := by
  induction xs generalizing j with
  | nil => simp [places]
  | cons x rest ih =>
    have hcons : (i, p) ∈ places j (x :: rest) ↔
        i = j ∧ x = .promise p ∨ (i, p) ∈ places (j + 1) rest := by
      cases x <;> simp [places, eq_comm]
    rw [hcons, ih]
    constructor
    · rintro (⟨rfl, rfl⟩ | ⟨l, rfl, hl⟩)
      · exact ⟨0, rfl, rfl⟩
      · exact ⟨l + 1, by omega, hl⟩
    · rintro ⟨l, rfl, hl⟩
      cases l with
      | zero => exact .inl ⟨rfl, Option.some.inj hl⟩
      | succ l => exact .inr ⟨l, by omega, hl⟩

theorem places_ne_nil {xs : List Value} (h : xs.any Value.isPromise = true) : places 0 xs ≠ [] := by
  obtain ⟨x, hmem, hx⟩ := List.any_eq_true.1 h
  obtain ⟨i, hi⟩ := List.mem_iff_getElem?.1 hmem
  cases x with
  | promise p =>
    have hplace : (i, p) ∈ places 0 xs := mem_places.2 ⟨i, (Nat.zero_add i).symm, hi⟩
    exact List.ne_nil_of_mem hplace
  | _ => cases hx

/-- The gather of operands, some of which are not there. -/
theorem all_of_places {ε η σ : Type} {deliver : Continuation η → Outcome → WorldM ε η σ Unit}
    {xs : List Value} (h : places 0 xs ≠ []) : Promise.all deliver xs = (do
      let result ← Promise.new
      let id ← onStore (Store.addGather ⟨xs, (places 0 xs).length, false, result⟩)
      watch deliver id (places 0 xs)
      return result : WorldM ε η σ PromiseId) := by
  unfold Promise.all
  split
  · rename_i hnil
    exact absurd hnil h
  · rfl

end Promise

end Deferral
