import Deferral.Proofs.Eval.Protocol

/-!
# Promises in private hands

A promise that has just been made is settled by those continuations that have been made for it, and by
nothing else. `held` collects the continuations of some kind, in the store and in flight; none of the
steps that have nothing to do with them makes a difference to what is held. `Private` says that no
gather and no task is about to settle the promise.
-/

set_option autoImplicit false

namespace Deferral

/-- Whether a continuation is for settling a promise. -/
def Continuation.settles {η : Type} (t : PromiseId) : Continuation η → Bool
  | .adopt target => target == t
  | .derive target _ => target == t
  | _ => false

/-- Whether a continuation brings an operand to a gather. -/
def Continuation.brings {η : Type} (id : GatherId) : Continuation η → Bool
  | .gather other _ => other == id
  | _ => false

/-- The continuations of some kind that wait or are in flight. -/
def held (kind : Continuation Handler → Bool) (F : InFlight) (s : Store Handler) : InFlight :=
  (s.waits + F).filter fun e => kind e.2

section

variable {kind : Continuation Handler → Bool} {F : InFlight} {s s' : Store Handler} {p t : PromiseId}
  {k : Continuation Handler} {ks : List (Continuation Handler)}

theorem held_congr (h : s'.waits = s.waits) : held kind F s' = held kind F s := by
  rw [held, held, h]

theorem held_cons_of_false (h : kind k = false) : held kind ((p, k) ::ₘ F) s = held kind F s := by
  rw [held, held, Multiset.add_cons, Multiset.filter_cons_of_neg _ (by simp [h])]

theorem held_cons_of_true (h : kind k = true) :
    held kind ((p, k) ::ₘ F) s = (p, k) ::ₘ held kind F s := by
  rw [held, held, Multiset.add_cons, Multiset.filter_cons_of_pos _ (by simpa using h)]

/-- With nothing in flight, what is held waits for a promise without an outcome. -/
theorem outcome?_of_held (h : (p, k) ∈ held kind 0 s) : s.outcome? p = none := by
  have hmem := Multiset.mem_of_mem_filter h
  rw [add_zero] at hmem
  obtain ⟨ks, hks, -⟩ := Store.mem_waits.1 hmem
  rw [Store.outcome?, hks]
  rfl

/-- Settling moves what waits into flight. -/
theorem held_settle (h : s.state t = .pending ks) (o : Outcome) :
    held kind (Continuation.awaiting t ks + F) (s.setState t (.ofOutcome o)) = held kind F s := by
  have hwaits := Store.waits_settle_add t o s
  rw [Store.settle_pending h] at hwaits
  rw [held, held, ← add_assoc, hwaits]

/-- Registering moves what is in flight into the store. -/
theorem held_register (hp : s.Has p) (h : s.state p = .pending ks) :
    held kind F (s.setState p (.pending (ks ++ [k]))) = held kind ((p, k) ::ₘ F) s := by
  rw [held, held, Store.waits_register hp h, Multiset.cons_add, Multiset.add_cons]

theorem held_register_of_false (hk : kind k = false) (h : s.state p = .pending ks) :
    held kind F (s.setState p (.pending (ks ++ [k]))) = held kind F s := by
  by_cases hp : s.Has p
  · rw [held_register hp h, held_cons_of_false hk]
  · rw [Store.setState_of_not_has hp]

/-- No promise holds a promise. -/
theorem Store.Flat.concrete (h : s.Flat) {o : Outcome} (hp : s.outcome? p = some o) : Concrete o :=
  h p o (Store.state_of_outcome? hp)

/-! ## What code does -/

theorem filter_awaiting_eq_zero (h : ∀ k ∈ ks, kind k = false) :
    (Continuation.awaiting p ks).filter (fun e => kind e.2) = 0 := by
  refine Multiset.filter_eq_nil.2 fun e he => ?_
  obtain ⟨k, hk, rfl⟩ := List.mem_map.1 (Multiset.mem_coe.1 he)
  simp [h k hk]

theorem filter_awaiting_append {more : List (Continuation Handler)} (h : ∀ k ∈ more, kind k = false)
    (st : PromiseState Handler) :
    (Continuation.awaiting p (st.append more).waiting).filter (fun e => kind e.2) =
      (Continuation.awaiting p st.waiting).filter fun e => kind e.2 := by
  cases st with
  | pending ks =>
    have hsplit : Continuation.awaiting p (ks ++ more) =
        Continuation.awaiting p ks + Continuation.awaiting p more := by
      rw [Continuation.awaiting, List.map_append, ← Multiset.coe_add]
      rfl
    change (Continuation.awaiting p (ks ++ more)).filter _ = _
    rw [hsplit, Multiset.filter_add, filter_awaiting_eq_zero h, add_zero]
    rfl
  | _ => rfl

/-- Code adds only continuations for what it has made itself. -/
theorem held_grown (hgrown : s.Grown s.fence s') (hfenced : s'.Fenced s.fence)
    (hkind : ∀ k, s'.Admits s.fence k → kind k = false) : held kind F s' = held kind F s := by
  let only : Multiset (PromiseId × Continuation Handler) →+
      Multiset (PromiseId × Continuation Handler) :=
    { toFun := Multiset.filter fun e => kind e.2
      map_zero' := Multiset.filter_zero _
      map_add' := Multiset.filter_add _ }
  have hold : ∀ i ∈ Finset.range s.promises.size,
      only (Continuation.awaiting ⟨i⟩ (s'.state ⟨i⟩).waiting) =
        only (Continuation.awaiting ⟨i⟩ (s.state ⟨i⟩).waiting) := by
    intro i hi
    obtain ⟨more, hstate, hmore⟩ := hgrown.old ⟨i⟩ (Finset.mem_range.1 hi)
    rw [hstate]
    exact filter_awaiting_append (fun k hk => hkind k (hmore k hk)) _
  have hnew : ∀ j, only (Continuation.awaiting ⟨s.promises.size + j⟩
      (s'.state ⟨s.promises.size + j⟩).waiting) = 0 := by
    intro j
    refine filter_awaiting_eq_zero fun k hk => ?_
    cases hstate : s'.state ⟨s.promises.size + j⟩ with
    | pending ks =>
      rw [hstate] at hk
      exact hkind k (hfenced.waiting _ ks (Nat.le_add_right _ _) hstate k hk)
    | fulfilled v => simp [hstate, PromiseState.waiting] at hk
    | failed e => simp [hstate, PromiseState.waiting] at hk
  have hwaits : only s'.waits = only s.waits := by
    have hsize : s'.promises.size = s.promises.size + (s'.promises.size - s.promises.size) :=
      (Nat.add_sub_cancel' hgrown.promises).symm
    rw [Store.waits, Store.waits, hsize, Finset.sum_range_add, map_add, map_sum, map_sum, map_sum,
      Finset.sum_congr rfl hold, Finset.sum_eq_zero fun j _ => hnew j, add_zero]
  change only (s'.waits + F) = only (s.waits + F)
  rw [map_add, map_add, hwaits]

end

/-! ## Gathers and tasks -/

theorem evolves_settle {m : Machine} {t : PromiseId} {ks : List (Continuation Handler)}
    (hks : m.store.state t = .pending ks) {o : Outcome} (ho : Concrete o) :
    Evolves m (m.withStore (m.store.setState t (.ofOutcome o))) := by
  have hchange := Change.settled m t ho
  rw [Store.settle_pending hks] at hchange
  exact .single hchange

theorem evolves_register {m : Machine} {t : PromiseId} {ks : List (Continuation Handler)}
    (hks : m.store.state t = .pending ks) (k : Continuation Handler) :
    Evolves m (m.withStore (m.store.setState t (.pending (ks ++ [k])))) := by
  have hchange := Change.registered m t k
  rcases Store.register_cases t k m.store with ⟨ks', hks', hs⟩ | ⟨o, ho, -⟩
  · obtain rfl := PromiseState.pending.inj (hks'.symm.trans hks)
    rw [hs] at hchange
    exact .single hchange
  · exact absurd (ho.symm.trans hks) (PromiseState.ofOutcome_ne_pending o ks)

/-- No gather but the one given, and no task, is about to settle the promise. It has been made since the
machine given first. -/
structure Private (t : PromiseId) (own : Option GatherId) (origin m : Machine) : Prop where
  evolves : Evolves origin m
  flat : m.store.Flat
  has : m.store.Has t
  results : ∀ (id : GatherId) (g : Gather), m.store.gathers[id.index]? = some g → own ≠ some id →
    g.result ≠ t
  tasks : ∀ task ∈ m.rest.queue, task.target ≠ t

namespace Private

variable {t r : PromiseId} {own : Option GatherId} {origin m m' : Machine} (h : Private t own origin m)
include h

/-- A step that changes neither gathers nor tasks. -/
theorem step (he : Evolves m m') (hgathers : m'.store.gathers = m.store.gathers)
    (hqueue : m'.rest.queue = m.rest.queue) : Private t own origin m' :=
  ⟨h.evolves.trans he, he.flat h.flat, he.has h.has, by rw [hgathers]; exact h.results,
    by rw [hqueue]; exact h.tasks⟩

theorem passed (hpassed : Passed m m') : Private t own origin m' where
  evolves := h.evolves.trans hpassed.evolves
  flat := hpassed.evolves.flat h.flat
  has := hpassed.evolves.has h.has
  results id g hg hown := by
    by_cases hold : id.index < m.store.gathers.size
    · rw [hpassed.grown.store.kept id.index hold] at hg
      exact h.results id g hg hown
    · have howns := hpassed.fenced.results id.index g (Nat.not_lt.1 hold) hg
      rintro rfl
      exact absurd h.has (Nat.not_lt.2 howns.1)
  tasks task htask := by
    obtain ⟨more, hqueue, hmore⟩ := hpassed.grown.queue
    rw [hqueue] at htask
    rcases List.mem_append.1 htask with htask | htask
    · exact h.tasks task htask
    · rintro rfl
      exact absurd h.has (Nat.not_lt.2 (hmore task htask).1)

theorem settle {ks : List (Continuation Handler)} (hks : m.store.state r = .pending ks) {o : Outcome}
    (ho : Concrete o) : Private t own origin (m.withStore (m.store.setState r (.ofOutcome o))) :=
  h.step (evolves_settle hks ho) rfl rfl

theorem register {ks : List (Continuation Handler)} (hks : m.store.state r = .pending ks)
    (k : Continuation Handler) :
    Private t own origin (m.withStore (m.store.setState r (.pending (ks ++ [k])))) :=
  h.step (evolves_register hks k) rfl rfl

theorem record (id : GatherId) (i : Nat) (o : Outcome) :
    Private t own origin (m.withStore (m.store.record id i o).2) := by
  refine ⟨h.evolves.tail (.recorded m id i o), Change.flat (.recorded m id i o) h.flat,
    Change.has (.recorded m id i o) h.has, fun id' g' hg' hown => ?_, h.tasks⟩
  rcases Store.record_cases id i o m.store with ⟨-, hs⟩ | ⟨g, hg, hs⟩
  · rw [hs] at hg'
    exact h.results id' g' hg' hown
  · rw [hs] at hg'
    change (m.store.gathers.setIfInBounds id.index (g.record i o).1)[id'.index]? = some g' at hg'
    rw [Array.getElem?_setIfInBounds] at hg'
    split at hg'
    · rename_i hid
      split at hg'
      · obtain rfl := Option.some.inj hg'
        rw [g.result_record]
        exact h.results id' g (hid ▸ hg) hown
      · cases hg'
    · exact h.results id' g' hg' hown

/-- What another gather settles is another promise. -/
theorem ne_of_record {id : GatherId} {i : Nat} {o combined : Outcome} (hown : own ≠ some id)
    (hrecord : (m.store.record id i o).1 = some (r, combined)) : r ≠ t := by
  rcases Store.record_cases id i o m.store with ⟨-, hs⟩ | ⟨g, hg, hs⟩
  · rw [hs] at hrecord
    cases hrecord
  · rw [hs] at hrecord
    obtain ⟨_, -, hanswer⟩ := Option.map_eq_some_iff.1 hrecord
    obtain ⟨rfl, -⟩ := Prod.mk.inj hanswer
    rw [g.result_record]
    exact h.results id g hg hown

theorem dequeue {queue : List Task} (hqueue : ∀ task ∈ queue, task ∈ m.rest.queue) :
    Private t own origin (m.withQueue queue) :=
  ⟨h.evolves.tail (.queue m queue), h.flat, h.has, h.results,
    fun task htask => h.tasks task (hqueue task htask)⟩

/-- Code does not settle the promise. -/
theorem outcome?_passed (hpassed : Passed m m') : m'.store.outcome? t = m.store.outcome? t :=
  hpassed.grown.store.outcome?_old h.has

theorem held_passed (F : InFlight) (hpassed : Passed m m') :
    held (Continuation.settles t) F m'.store = held (Continuation.settles t) F m.store := by
  refine held_grown hpassed.grown.store hpassed.fenced fun k hk => ?_
  have hne : ∀ target, m'.store.Owns m.store.fence target → (target == t) = false := by
    intro target howns
    refine beq_false_of_ne ?_
    rintro rfl
    exact absurd h.has (Nat.not_lt.2 howns.1)
  cases k with
  | adopt target => exact hne target hk
  | derive target handler => exact hne target hk
  | _ => rfl

end Private

end Deferral
