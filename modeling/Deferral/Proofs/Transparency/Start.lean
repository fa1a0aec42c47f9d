import Deferral.Proofs.Transparency.Constructs

/-!
# How runs start

A run starts from an ordinary machine: the host has provided nothing but natives of the prelude, and
what the program has bound is data. Promises may be *held* back by the host, each for a value that it
is going to give to the promise later. The run is about these promises and about all that are made in
the course of it.
-/

set_option autoImplicit false

namespace Deferral

/-- What a value comes to: itself, or the outcome of the promise that it is, once there is one. -/
def Machine.lookThrough (m : Machine) : Value → Option Outcome
  | .promise p => m.store.outcome? p
  | v => some (.ok v)

/-- A name for a native of the prelude that the host has provided, or for data. -/
def Binding.isOrdinary (fs : Array Function) (b : Binding) : Bool :=
  if b.builtin then
    match b.value with
    | .function id => allows fs id
    | _ => false
  else b.value.isData

theorem Binding.inert_of_isOrdinary {fs : Array Function} {b : Binding} (h : b.isOrdinary fs = true) :
    b.value.inert (allows fs) = true := by
  unfold isOrdinary at h
  split at h
  · split at h
    · rename_i id hv
      rw [hv]
      exact h
    · cases h
  · exact Value.inert_of_isData h

/-- The environment is made of the prelude and of data. -/
def Machine.Ordinary (m : Machine) : Prop :=
  ∀ b ∈ m.rest.env.bindings, b.isOrdinary m.rest.functions = true

theorem Machine.Ordinary.plain {m : Machine} (h : m.Ordinary) : m.Plain m.rest.functions :=
  ⟨fun _ _ => rfl, fun b hb => Binding.inert_of_isOrdinary (h b hb)⟩

/-- Evaluation gives a value only where it has not been interrupted. -/
theorem quiet_of_eval {context : Context} {n : Nat} {e : Expr} {m m' : Machine} {v : Value}
    (h : (engine context n).eval e m = .ok v m') : m.rest.interrupted = false := by
  cases n with
  | zero => cases h
  | succ n =>
    cases hq : m.rest.interrupted with
    | false => rfl
    | true =>
      have hx : (engine context (n + 1)).eval e m = (if m.rest.interrupted then
          EvalM.fail .interrupted else (engine context n).evalKind e : EvalM Value) m := rfl
      rw [hx, hq] at h
      cases h

/-- What a run starts from that is about the promises held back. -/
def Setting.ofHeld (context : Context) (m : Machine) (held : List (PromiseId × Value)) (nesting : Nat)
    (accepts : 0 < nesting → context.executor ≠ .refusing) : Setting where
  context := context
  functions := m.rest.functions
  watches p := decide (p ∈ held.map Prod.fst) || decide (m.store.promises.size ≤ p.index)
  start := m.store.promises.size
  watches_later _ h := by rw [decide_eq_true h, Bool.or_true]
  older := m.rest.queue.length
  nesting := nesting
  accepts := accepts

/-- The promises held back are going to have their values. -/
def Plan.ofHeld (held : List (PromiseId × Value)) : Plan where
  value p := held.lookup p
  rank _ := 0
  weight _ := 0
  gather _ := none

section

variable {context : Context} {m : Machine} {held : List (PromiseId × Value)} {nesting : Nat}
  {accepts : 0 < nesting → context.executor ≠ .refusing}

theorem Plan.mem_of_value_ofHeld {p : PromiseId} {v : Value}
    (h : (Plan.ofHeld held).value p = some v) : (p, v) ∈ held := by
  obtain ⟨l₁, l₂, rfl, -⟩ := List.lookup_eq_some_iff.1 h
  exact List.mem_append_right _ (.head _)

theorem Plan.value_ofHeld {p : PromiseId} {v : Value} (hdistinct : (held.map Prod.fst).Nodup)
    (h : (p, v) ∈ held) : (Plan.ofHeld held).value p = some v := by
  obtain ⟨l₁, l₂, rfl⟩ := List.append_of_mem h
  refine List.lookup_eq_some_iff.2 ⟨l₁, l₂, rfl, fun x hx => ?_⟩
  rw [List.map_append, List.map_cons, List.nodup_append] at hdistinct
  rw [bne_iff_ne]
  exact (hdistinct.2.2 x.1 (List.mem_map_of_mem hx) p (.head _)).symm

theorem Plan.exists_value_ofHeld {p : PromiseId} :
    (∃ v, (Plan.ofHeld held).value p = some v) ↔ p ∈ held.map Prod.fst := by
  rw [← Option.isSome_iff_exists]
  change (held.lookup p).isSome = true ↔ _
  rw [List.lookup_isSome_iff, List.mem_map]
  constructor
  · rintro ⟨h, hmem, hp⟩
    exact ⟨h, hmem, (beq_iff_eq.1 hp).symm⟩
  · rintro ⟨h, hmem, rfl⟩
    exact ⟨h, hmem, beq_self_eq_true h.1⟩

/-- At the start nothing waits for a promise that the run is about. -/
theorem not_waiting_ofHeld (hheld : ∀ h ∈ held, m.store.Has h.1 ∧ m.store.state h.1 = .pending [])
    {p : PromiseId} {ks : List (Continuation Handler)}
    (hw : (Setting.ofHeld context m held nesting accepts).watches p = true)
    (hs : m.store.state p = .pending ks) : ks = [] := by
  rcases Bool.or_eq_true_iff.1 hw with hp | hp
  · obtain ⟨h, hmem, rfl⟩ := List.mem_map.1 (of_decide_eq_true hp)
    rw [(hheld h hmem).2] at hs
    cases hs
    rfl
  · rw [Store.state_of_not_has (Nat.not_lt.2 (of_decide_eq_true hp))] at hs
    cases hs
    rfl

theorem good_ofHeld (hquiet : m.rest.interrupted = false)
    (hinert : ∀ h ∈ held, h.2.inert (allows m.rest.functions) = true)
    (hheld : ∀ h ∈ held, m.store.Has h.1 ∧ m.store.state h.1 = .pending []) :
    Good (.ofHeld context m held nesting accepts) (.ofHeld held) (held.map fun h => .adopt h.1) m := by
  have hflight : ∀ {k}, (Setting.ofHeld context m held nesting accepts).Outstanding
      (held.map fun h => .adopt h.1) m.store k → ∃ p ∈ held.map Prod.fst, k = .adopt p := by
    rintro k (hk | ⟨p, ks, hw, hs, hk⟩)
    · obtain ⟨h, hmem, rfl⟩ := List.mem_map.1 hk
      exact ⟨h.1, List.mem_map_of_mem hmem, rfl⟩
    · rw [not_waiting_ofHeld hheld hw hs] at hk
      cases hk
  have htasks : (Setting.ofHeld context m held nesting accepts).tasks m = [] := List.drop_length
  refine ⟨hquiet, fun _ _ => rfl, Nat.le_refl _, Nat.le_refl _, fun p => ?_, fun hv => ?_,
    fun {p v} hv => ?_, fun {p v ks} hv _ => ?_, fun hk hp => ?_, fun hk => ?_, fun hg => ?_,
    fun task ht => ?_⟩
  · rw [Plan.exists_value_ofHeld]
    constructor
    · intro hp
      obtain ⟨h, hmem, rfl⟩ := List.mem_map.1 hp
      exact ⟨Bool.or_eq_true_iff.2 (.inl (decide_eq_true hp)), (hheld h hmem).1⟩
    · rintro ⟨hw, hhas⟩
      rcases Bool.or_eq_true_iff.1 hw with hp | hp
      · exact of_decide_eq_true hp
      · exact absurd hhas (Nat.not_lt.2 (of_decide_eq_true hp))
  · exact hinert _ (Plan.mem_of_value_ofHeld hv)
  · exact .inr ⟨[], (hheld _ (Plan.mem_of_value_ofHeld hv)).2, fun _ hk => by cases hk⟩
  · exact .continuation (.inl (List.mem_map.2 ⟨(p, v), Plan.mem_of_value_ofHeld hv, rfl⟩)) rfl
  · obtain ⟨q, hq, rfl⟩ := hflight hk
    obtain rfl : q = _ := hp
    exact Plan.exists_value_ofHeld.2 hq
  · obtain ⟨q, -, hq⟩ := hflight hk
    cases hq
  · cases hg
  · rw [htasks] at ht
    cases ht

end

/-! ## How runs end -/

/-- With nothing in flight and nothing queued, what stands for a value comes to it. -/
theorem Good.lookThrough {S : Setting} {G : Plan} {m : Machine} (h : Good S G [] m)
    (hqueue : S.tasks m = []) {τ : Nat} {r v : Value} (hr : Stands S G τ r v) :
    m.lookThrough r = some (.ok v) := by
  cases hr with
  | itself inert =>
    cases r with
    | promise p => exact absurd rfl (Value.ne_promise_of_inert inert p)
    | _ => rfl
  | promise value =>
    rw [Machine.lookThrough, Store.outcome?, h.settled_of_idle hqueue value]
    rfl

end Deferral
