import Deferral.Proofs.Eval.Collection
import Deferral.Proofs.Eval.Derived

/-!
# Starting a gather

A gather for operands of a sound machine starts out with all of them in flight that are promises, and
is then registered with one after the other. An operand that is there already is recorded at once, and
the last one, or a failure, settles the result. Nothing else happens meanwhile, because nothing waits
for the result yet, so it makes no difference by which engine the gather is started (`start_all`).
-/

set_option autoImplicit false

namespace Deferral

/-- The continuations that a gather is to leave with promises. -/
def GatherId.awaiting (id : GatherId) (awaited : List (Nat × PromiseId)) : InFlight :=
  ↑(awaited.map fun x => ((x.2, .gather id x.1) : PromiseId × Continuation Handler))

theorem GatherId.mem_awaiting {id : GatherId} {awaited : List (Nat × PromiseId)} {p : PromiseId}
    {k : Continuation Handler} :
    (p, k) ∈ id.awaiting awaited ↔ ∃ i, (i, p) ∈ awaited ∧ k = .gather id i := by
  simp only [awaiting, Multiset.mem_coe, List.mem_map, Prod.mk.injEq, Prod.exists]
  constructor
  · rintro ⟨i, _, hmem, rfl, rfl⟩
    exact ⟨i, hmem, rfl⟩
  · rintro ⟨i, hmem, rfl⟩
    exact ⟨i, p, hmem, rfl, rfl⟩

/-- Operands are handed to a gather in the usual way. -/
def Gathers (id : GatherId) (deliver : Continuation Handler → Outcome → EvalM Unit) : Prop :=
  ∃ d handle, ∀ i o, deliver (.gather id i) o = Promise.deliverStep d handle (.gather id i) o

theorem gathers_engine (id : GatherId) (context : Context) (n : Nat) :
    Gathers id (engine context (n + 1)).deliver :=
  ⟨(engine context n).deliver, (engine context n).handle, fun _ _ => rfl⟩

theorem gathers_observed (id : GatherId) (q : PromiseId) (context : Context) (n : Nat) :
    Gathers id (observed q context (n + 1)).deliver :=
  ⟨_, _, fun _ _ => observed_deliver q context n rfl⟩

namespace Collection

/-- The gather that is started for operands in a machine. -/
def start (m : Machine) (operands : List Value) : Collection :=
  ⟨m, ⟨m.store.gathers.size⟩, m.store.fresh.1, operands⟩

/-- The gather of operands none of which has come in. -/
def initial (m : Machine) (operands : List Value) : Gather :=
  ⟨operands, (Promise.places 0 operands).length, false, m.store.fresh.1⟩

/-- The machine in which operands have been given a gather, which is not with them yet. -/
def opened (m : Machine) (operands : List Value) : Machine :=
  m.withStore (m.store.fresh.2.addGather (initial m operands)).2

/-- What is then in flight. -/
def underway (m : Machine) (operands : List Value) : InFlight :=
  (start m operands).id.awaiting (Promise.places 0 operands)

section

variable {m : Machine} (hm : m.Sound) (operands : List Value)

theorem evolves_opened : Evolves m (opened m operands) :=
  .tail (.single (.made m)) (.gathering (m.withStore m.store.fresh.2) (initial m operands))

theorem gathers_opened :
    (opened m operands).store.gathers = m.store.gathers.push (initial m operands) := rfl

theorem held_opened (kind : Continuation Handler → Bool) :
    held kind 0 (opened m operands).store = held kind 0 m.store.fresh.2 :=
  held_congr (Store.waits_addGather ..)

theorem collects_opened :
    (start m operands).Collects (underway m operands) (initial m operands) (opened m operands) where
  length := rfl
  remaining := by
    rw [underway, GatherId.awaiting.eq_def, Multiset.coe_card, List.length_map]
    rfl
  place p k hpk := by
    obtain ⟨i, hi, rfl⟩ := GatherId.mem_awaiting.1 hpk
    obtain ⟨l, rfl, hl⟩ := Promise.mem_places.1 hi
    exact ⟨0 + l, rfl, (Nat.zero_add l).symm ▸ hl⟩
  filled i v hv := by
    cases v with
    | promise p =>
      have hplace : (i, p) ∈ Promise.places 0 operands :=
        Promise.mem_places.2 ⟨i, (Nat.zero_add i).symm, hv⟩
      exact .inl ⟨p, GatherId.mem_awaiting.2 ⟨i, hplace, rfl⟩⟩
    | _ => exact .inr ⟨_, hv, rfl⟩

include hm

theorem hidden_opened : Private m.store.fresh.1 (some (start m operands).id) m (opened m operands) where
  evolves := evolves_opened operands
  flat := (evolves_opened operands).flat hm.flat
  has := hm.hidden_fresh.has
  results id g hg hid := by
    rw [gathers_opened, Array.getElem?_push] at hg
    split at hg
    · rename_i hsize
      exact absurd (congrArg (fun i => some (GatherId.mk i)) hsize.symm) hid
    · exact hm.hidden_fresh.results id g hg nofun
  tasks := hm.hidden_fresh.tasks

theorem settlers_opened :
    held (Continuation.settles m.store.fresh.1) (underway m operands) (opened m operands).store = 0 := by
  rw [held_add, held_opened, hm.held_settles_fresh, zero_add]
  refine Multiset.filter_eq_nil.2 fun e he => ?_
  obtain ⟨i, -, hk⟩ := GatherId.mem_awaiting.1 he
  rw [hk]
  exact nofun

theorem tokens_opened :
    (start m operands).tokens (underway m operands) (opened m operands) = underway m operands := by
  have hnone : held (Continuation.brings (start m operands).id) 0 m.store.fresh.2 = 0 := by
    refine (held_congr (Store.waits_fresh _)).trans (hm.fenced.held_eq_zero fun k hk => ?_)
    cases k with
    | gather id i =>
      refine beq_false_of_ne ?_
      rintro rfl
      exact absurd hk.2 (Nat.lt_irrefl _)
    | _ => rfl
  rw [tokens, held_add, held_opened, hnone, zero_add]
  refine Multiset.filter_eq_self.2 fun e he => ?_
  obtain ⟨i, -, hk⟩ := GatherId.mem_awaiting.1 he
  rw [hk]
  exact beq_self_eq_true _

/-- The gather starts out with all operands that are promises in flight. -/
theorem inv_opened (hany : operands.any Value.isPromise = true)
    (hhas : ∀ p, .promise p ∈ operands → m.store.Has p) :
    (start m operands).Inv (underway m operands) (opened m operands) := by
  have htokens := tokens_opened hm operands
  refine ⟨⟨hidden_opened hm operands, fun p hp => (evolves_opened operands).has (hhas p hp), ?_,
    settlers_opened hm operands⟩, .gathering (initial m operands) ?_ rfl rfl ?_ ?_ ?_⟩
  · rw [gathers_opened, Array.size_push]
    exact Nat.lt_succ_self _
  · rw [gathers_opened]
    exact Array.getElem?_push_size
  · rw [htokens]
    exact collects_opened operands
  · rw [htokens]
    intro hnone
    exact Promise.places_ne_nil hany (List.map_eq_nil_iff.1 ((Multiset.coe_eq_zero _).1 hnone))
  · change m.store.fresh.2.outcome? m.store.fresh.1 = none
    rw [Store.outcome?, Store.state_made]
    rfl

end

/-! ## Registering the gather with its operands -/

variable {C : Collection} {F : InFlight} {m : Machine}

variable (C) in
/-- Nothing waits for the result. -/
def Quiet (m : Machine) : Prop := ∀ ks, m.store.state C.result = .pending ks → ks = []

/-- What an operand completes is the result of the gather. -/
theorem Inv.target_eq {i : Nat} {o combined : Outcome} {t : PromiseId} (h : C.Inv F m)
    (hrecord : (m.store.record C.id i o).1 = some (t, combined)) : t = C.result := by
  cases h.phase with
  | gathered g _ hg hdone =>
    rw [(Inv.record_own hg (g.record_of_done i hdone o)).1] at hrecord
    cases hrecord
  | gathering g hg hresult =>
    rw [(Inv.record_own hg (rfl : g.record i o = (_, _))).1] at hrecord
    obtain ⟨_, -, htarget⟩ := Option.map_eq_some_iff.1 hrecord
    rw [← hresult, ← g.result_record i o]
    exact (congrArg Prod.fst htarget).symm

/-- One operand is registered, or recorded if it is there already. -/
theorem Inv.watch_one {p : PromiseId} {i : Nat} (h : C.Inv ((p, .gather C.id i) ::ₘ F) m)
    (hp : p ≠ C.result) (hquiet : C.Quiet m) :
    ∃ m₁ : Machine, (∀ deliver, Gathers C.id deliver →
        Promise.onComplete deliver p (.gather C.id i) m = .ok () m₁) ∧ C.Inv F m₁ ∧ C.Quiet m₁ := by
  rcases Store.register_cases p (.gather C.id i) m.store with ⟨ks, hks, hs⟩ | ⟨o, ho, hs⟩
  · refine ⟨_, fun deliver _ => ?_, h.register hks, fun ks' hks' => hquiet ks' ?_⟩
    · rw [Promise.onComplete_apply, hs]
      rfl
    · rwa [Machine.withStore, Store.state_setState_ne hp.symm] at hks'
  · let m' := m.withStore (m.store.record C.id i o).2
    have hstate : m'.store.state C.result = m.store.state C.result :=
      Store.state_record C.id i o m.store C.result
    have hstep : ∀ deliver, Gathers C.id deliver → ∃ d handle,
        Promise.onComplete deliver p (.gather C.id i) m =
          Promise.deliverStep d handle (.gather C.id i) o m := by
      rintro deliver ⟨d, handle, hdeliver⟩
      refine ⟨d, handle, ?_⟩
      rw [Promise.onComplete_apply, hs]
      exact congrFun (hdeliver i o) m
    have hgather := h.gather (Store.outcome?_of_state ho)
    cases hrecord : (m.store.record C.id i o).1 with
    | none =>
      rw [hrecord] at hgather
      refine ⟨m', fun deliver hdeliver => ?_, hgather, fun ks hks => hquiet ks (hstate ▸ hks)⟩
      obtain ⟨d, handle, hd⟩ := hstep deliver hdeliver
      exact hd.trans (Promise.deliverStep_gather_none d handle hrecord)
    | some answer =>
      obtain ⟨t, combined⟩ := answer
      obtain rfl := h.target_eq hrecord
      rw [hrecord] at hgather
      -- the result is settled, and nothing waits for it
      have hdue : C.Due C.result combined F m' := hgather
      have howed := hdue.owed rfl
      have hpending : m'.store.state C.result = .pending [] := by
        rcases (m'.store.state C.result).pending_or_ofOutcome with ⟨ks, hks⟩ | ⟨o', ho'⟩
        · rw [hks, hquiet ks (hstate ▸ hks)]
        · cases howed.pending.symm.trans (Store.outcome?_of_state ho')
      have hsettle := hdue.settle howed.gives.concrete hpending
      have hnothing : Continuation.awaiting C.result ([] : List (Continuation Handler)) + F = F :=
        zero_add F
      rw [hnothing] at hsettle
      refine ⟨_, fun deliver hdeliver => ?_, hsettle, fun ks hks => ?_⟩
      · obtain ⟨d, handle, hd⟩ := hstep deliver hdeliver
        rw [hd, Promise.deliverStep_gather_some d handle hrecord]
        exact (congrFun (Promise.fulfil_concrete d howed.gives.concrete C.result) m').trans
          (Promise.settle_quiet d hpending combined)
      · rw [Machine.withStore, Store.state_setState_self hdue.hidden.has] at hks
        exact absurd hks (PromiseState.ofOutcome_ne_pending combined ks)

/-- All operands are registered or recorded, and then none is in flight. -/
theorem Inv.watch (awaited : List (Nat × PromiseId)) {m : Machine} (h : C.Inv (C.id.awaiting awaited) m)
    (hne : ∀ x ∈ awaited, x.2 ≠ C.result) (hquiet : C.Quiet m) :
    ∃ m₁ : Machine,
      (∀ deliver, Gathers C.id deliver → Promise.watch deliver C.id awaited m = .ok () m₁) ∧
      C.Inv 0 m₁ := by
  induction awaited generalizing m with
  | nil => exact ⟨m, fun _ _ => rfl, h⟩
  | cons x rest ih =>
    obtain ⟨i, p⟩ := x
    have hsplit : C.id.awaiting ((i, p) :: rest) = (p, .gather C.id i) ::ₘ C.id.awaiting rest := rfl
    obtain ⟨m₁, hrun, hinv, hquiet₁⟩ := (hsplit ▸ h).watch_one (hne _ (.head _)) hquiet
    obtain ⟨m₂, hrest, hinv₂⟩ := ih hinv (fun x hx => hne x (.tail _ hx)) hquiet₁
    refine ⟨m₂, fun deliver hdeliver => ?_, hinv₂⟩
    exact (EvalM.bind_of_ok (hrun deliver hdeliver)).trans (hrest deliver hdeliver)

/-- At first nothing waits for the result. -/
theorem quiet_opened (m : Machine) (operands : List Value) :
    (start m operands).Quiet (opened m operands) := by
  intro ks hks
  change m.store.fresh.2.state m.store.fresh.1 = .pending ks at hks
  rw [Store.state_made] at hks
  exact (PromiseState.pending.inj hks).symm

/-- The result is none of the operands. -/
theorem ne_result_of_places {operands : List Value} (hhas : ∀ p, .promise p ∈ operands → m.store.Has p) :
    ∀ x ∈ Promise.places 0 operands, x.2 ≠ (start m operands).result := by
  rintro ⟨i, p⟩ hx rfl
  obtain ⟨l, -, hl⟩ := Promise.mem_places.1 hx
  exact m.store.not_has_fresh (hhas _ (List.mem_of_getElem? hl))

/-- A gather is started, and then waits for what is missing. -/
theorem start_all (hm : m.Sound) {operands : List Value} (hany : operands.any Value.isPromise = true)
    (hhas : ∀ p, .promise p ∈ operands → m.store.Has p) :
    ∃ m₁ : Machine, (∀ deliver, Gathers (start m operands).id deliver →
        Promise.all deliver operands m = .ok m.store.fresh.1 m₁) ∧ (start m operands).Inv 0 m₁ := by
  obtain ⟨m₁, hrun, hinv⟩ := (inv_opened hm operands hany hhas).watch _ (ne_result_of_places hhas)
    (quiet_opened m operands)
  refine ⟨m₁, fun deliver hdeliver => ?_, hinv⟩
  rw [Promise.all_of_places (Promise.places_ne_nil hany), Promise.new_bind]
  exact EvalM.bind_of_ok (hrun deliver hdeliver)

end Collection

end Deferral
