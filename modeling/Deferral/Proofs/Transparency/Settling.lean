import Deferral.Proofs.Transparency.Account

/-!
# Operations on promises that go as planned

`Delivers S n deliver` says that sound continuations, given the value they wait for, are run without
loss as long as the load is at most `n`. The operations on promises are then run as planned, too:
settling a promise lands everything that waited for it, a derived promise is planned for with what its
handler is going to make of the value, and a gather is planned for with the tuple of its operands.
-/

set_option autoImplicit false

namespace Deferral

/-- The run of `x` goes well, with other continuations in flight afterwards. -/
def Runs (S : Setting) (cost : Nat) (x : EvalM Unit) (G : Plan) (F : List (Continuation Handler))
    (m : Machine) (F' : List (Continuation Handler)) : Prop :=
  ∃ G' m', x m = .ok () m' ∧ Leads S cost 0 [] G F m G' F' m'

/-- The run of `x` ends with something that stands for `v`. -/
def Answers (S : Setting) (τ cost : Nat) (isScoped : Bool) (x : EvalM Value) (G : Plan)
    (F : List (Continuation Handler)) (m : Machine) (v : Value) : Prop :=
  ∃ r G' m' more, x m = .ok r m' ∧ Leads S cost 0 more G F m G' F m' ∧
    (isScoped = true → more = []) ∧ Stands S G' (τ + cost) r v

/-- Sound continuations are run as planned while the load is at most `n`. -/
structure Delivers (S : Setting) (n : Nat)
    (deliver : Continuation Handler → Outcome → EvalM Unit) : Prop where
  run : ∀ {G F m k v ρ}, Good S G (k :: F) m → Sound S G m.store.isPending v ρ k →
    v.inert S.allows = true → S.load G (k :: F) m ≤ n →
    Runs S 0 (deliver k (.ok v)) G (k :: F) m F

theorem Promise.onStore_of_eq {α : Type} {step : Store Handler → α × Store Handler} {m : Machine}
    {a : α} {s : Store Handler} (h : step m.store = (a, s)) :
    (Promise.onStore step : EvalM α) m = .ok a (m.withStore s) := by
  rw [Promise.onStore, h]
  rfl

namespace Delivers

variable {S : Setting} {n : Nat} {deliver : Continuation Handler → Outcome → EvalM Unit}
  {G : Plan} {F : List (Continuation Handler)} {m : Machine} {p q : PromiseId} {v : Value}
  {k : Continuation Handler}

theorem deliverAll (h : Delivers S n deliver) {ks : List (Continuation Handler)} {ρ : Nat}
    (hgood : Good S G (ks ++ F) m) (hks : ∀ k ∈ ks, Sound S G m.store.isPending v ρ k)
    (hv : v.inert S.allows = true) (hload : S.load G (ks ++ F) m ≤ n) :
    Runs S 0 (Promise.deliverAll deliver ks (.ok v)) G (ks ++ F) m F := by
  induction ks generalizing G m with
  | nil => exact ⟨G, m, rfl, .refl hgood⟩
  | cons k rest ih =>
    obtain ⟨G₁, m₁, hrun, hleads⟩ := h.run hgood (hks k (.head _)) hv hload
    obtain ⟨G₂, m₂, hrest, hleads'⟩ := ih hleads.good
      (fun k' hk' => (hks k' (.tail _ hk')).mono hleads.advance.plan fun _ => hleads.advance.settled)
      (Nat.le_trans hleads.load hload)
    exact ⟨G₂, m₂, (EvalM.bind_of_ok hrun).trans hrest, hleads.trans hleads'⟩

/-- Settling a promise with its value. -/
theorem settle (h : Delivers S n deliver) (hgood : Good S G (.adopt p :: F) m)
    (hv : G.value p = some v) (hload : S.load G (.adopt p :: F) m ≤ n + 1) :
    Runs S 0 (Promise.settle deliver p (.ok v)) G (.adopt p :: F) m F := by
  rcases hgood.states hv with hs | ⟨ks, hs, hsound⟩
  · have hstep : m.store.settle p (.ok v) = ([], m.store) := by simp only [Store.settle, hs]
    have hpending : m.store.isPending p = false := by
      rw [Store.isPending, hs]
      rfl
    refine ⟨G, m, ?_, (hgood.leads_drop rfl hpending).le (by omega)⟩
    rw [Promise.settle, EvalM.bind_of_ok (Promise.onStore_of_eq hstep)]
    rfl
  · have hleads := hgood.leads_settle hv hs
    have hdue : ∀ q, (m.store.setState p (.fulfilled v)).isPending q = true →
        m.store.dueBeside p q = true := by
      intro q hq
      by_cases hqp : q = p
      · subst hqp
        rw [Store.isPending, Store.state_setState_self (hgood.has hv).2] at hq
        cases hq
      · rw [Store.isPending, Store.state_setState_ne hqp] at hq
        rw [Store.dueBeside, Store.isPending, hq, Bool.true_and, bne_iff_ne]
        exact hqp
    have hload' := hleads.load
    obtain ⟨G', m', hrun, hleads'⟩ := h.deliverAll hleads.good
      (fun k hk => (hsound k hk).mono (.refl G) hdue) (hgood.inert hv) (by omega)
    refine ⟨G', m', ?_, (hleads.trans hleads').le (by omega)⟩
    rw [Promise.settle, EvalM.bind_of_ok (Promise.onStore_of_eq (Store.settle_pending hs _))]
    exact hrun

/-- Giving a promise its value. -/
theorem fulfilItself (h : Delivers S n deliver) (hgood : Good S G (.adopt p :: F) m)
    (hv : G.value p = some v) (hload : S.load G (.adopt p :: F) m ≤ n + 1) :
    Runs S 0 (Promise.fulfil deliver p (.ok v)) G (.adopt p :: F) m F := by
  rw [Promise.fulfil_concrete]
  · exact h.settle hgood hv hload
  · intro q hq
    cases hq
    exact Value.ne_promise_of_inert (hgood.inert hv) q rfl

/-- A continuation in flight is registered, or run at once. -/
theorem onComplete (h : Delivers S n deliver) (hgood : Good S G (k :: F) m)
    (hv : G.value q = some v) (hk : Sound S G (m.store.dueBeside q) v (G.rank q) k)
    (hload : S.load G (k :: F) m ≤ n) :
    Runs S 0 (Promise.onComplete deliver q k) G (k :: F) m F := by
  rcases hgood.states hv with hs | ⟨ks, hs, -⟩
  · have hstep : m.store.register q k = (some (.ok v), m.store) := by
      simp only [Store.register, hs, PromiseState.outcome?]
    have hdue : ∀ p, m.store.isPending p = true → m.store.dueBeside q p = true := by
      intro p hp
      rw [Store.dueBeside, hp, Bool.true_and, bne_iff_ne]
      rintro rfl
      rw [Store.isPending, hs] at hp
      cases hp
    obtain ⟨G', m', hrun, hleads⟩ := h.run hgood (hk.mono (.refl G) hdue) (hgood.inert hv) hload
    refine ⟨G', m', ?_, hleads⟩
    rw [Promise.onComplete, EvalM.bind_of_ok (Promise.onStore_of_eq hstep)]
    exact hrun
  · have hstep : m.store.register q k = (none, m.store.setState q (.pending (ks ++ [k]))) := by
      simp only [Store.register, hs]
    refine ⟨G, _, ?_, hgood.leads_register hv hs hk⟩
    rw [Promise.onComplete, EvalM.bind_of_ok (Promise.onStore_of_eq hstep)]
    rfl

/-- Giving a promise what stands for its value. -/
theorem fulfil (h : Delivers S n deliver) {r : Value} {τ : Nat} (hgood : Good S G (.adopt p :: F) m)
    (hv : G.value p = some v) (hr : Stands S G τ r v) (hτ : τ < G.rank p)
    (hload : S.load G (.adopt p :: F) m ≤ n) :
    Runs S 0 (Promise.fulfil deliver p (.ok r)) G (.adopt p :: F) m F := by
  cases hr with
  | itself => exact h.fulfilItself hgood hv (Nat.le_succ_of_le hload)
  | @promise q _ value rank inert =>
    have hne : q ≠ p := by
      rintro rfl
      omega
    rw [Promise.fulfil_other deliver hne]
    exact h.onComplete hgood value (.adopt hv (Nat.lt_of_le_of_lt rank hτ)) hload

/-- A promise for what a handler is going to make of a value. -/
theorem derive (h : Delivers S n deliver) (handler : Handler) (ρ weight : Nat) {w : Value}
    (hgood : Good S G F m) (hv : G.value q = some v) (hw : w.inert S.allows = true)
    (hk : Sound S (G.track m.store.fresh.1 w ρ weight) (m.store.dueBeside q) v (G.rank q)
      (.derive m.store.fresh.1 handler))
    (hload : S.load G F m + weight ≤ n) :
    ∃ t G' m', Promise.derive deliver q handler m = .ok t m' ∧ Leads S weight 0 [] G F m G' F m' ∧
      G'.value t = some w ∧ G'.rank t = ρ := by
  have hlaunch := hgood.leads_launch (k := .derive m.store.fresh.1 handler) (ρ := ρ) (w := weight) hw rfl
  rw [Plan.load, Plan.weight_track_self] at hlaunch
  have hload' := hlaunch.load
  have hq := hlaunch.advance.plan.value hv
  have hrank := hlaunch.advance.plan.rank hv
  have hdue : ∀ p, m.store.fresh.2.dueBeside q p = true → m.store.dueBeside q p = true :=
    Store.dueBeside_mono fun _ => hlaunch.advance.settled
  rw [← hrank] at hk
  obtain ⟨G', m', hrun, hleads⟩ := h.onComplete hlaunch.good hq (hk.mono (.refl _) hdue) (by omega)
  refine ⟨_, G', m', ?_, (hlaunch.trans hleads).le (by omega),
    hleads.advance.plan.value Plan.value_track_self,
    (hleads.advance.plan.rank Plan.value_track_self).trans Plan.rank_track_self⟩
  have hnew : (Promise.new : EvalM PromiseId) m =
      .ok m.store.fresh.1 (m.withStore m.store.fresh.2) := rfl
  rw [Promise.derive, EvalM.bind_of_ok hnew, EvalM.bind_of_ok hrun]
  rfl

/-- Registering a gather with its promises. -/
theorem watch (h : Delivers S n deliver) {id : GatherId} {r : PromiseId} {vs : List Value}
    {ps : List (Nat × PromiseId)}
    (hgood : Good S G ((ps.map fun x => .gather id x.1) ++ F) m) (hg : G.gather id = some (r, vs))
    (hr : G.value r = some (.tuple vs))
    (hps : ∀ x ∈ ps, ∃ v, G.value x.2 = some v ∧ vs[x.1]? = some v ∧ G.rank x.2 < G.rank r)
    (hload : S.load G ((ps.map fun x => .gather id x.1) ++ F) m ≤ n) :
    Runs S 0 (Promise.watch deliver id ps) G ((ps.map fun x => .gather id x.1) ++ F) m F := by
  induction ps generalizing G m with
  | nil => exact ⟨G, m, rfl, .refl hgood⟩
  | cons x rest ih =>
    obtain ⟨i, q⟩ := x
    obtain ⟨v, hv, hplace, hrank⟩ := hps (i, q) (.head _)
    obtain ⟨G₁, m₁, hrun, hleads⟩ := h.onComplete hgood hv (.gather hg hr hplace hrank) hload
    obtain ⟨G₂, m₂, hrest, hleads'⟩ := ih hleads.good (hleads.advance.plan.gather hg)
      (hleads.advance.plan.value hr)
      (fun x hx => by
        obtain ⟨u, hu, hplace', hrank'⟩ := hps x (.tail _ hx)
        refine ⟨u, hleads.advance.plan.value hu, hplace', ?_⟩
        rw [hleads.advance.plan.rank hu, hleads.advance.plan.rank hr]
        exact hrank')
      (Nat.le_trans hleads.load hload)
    exact ⟨G₂, m₂, (EvalM.bind_of_ok hrun).trans hrest, hleads.trans hleads'⟩

end Delivers

/-! ## Operands -/

section

variable {S : Setting} {G : Plan} {τ i : Nat} {xs vs : List Value}

theorem Stands.of_promise {p : PromiseId} {v : Value} (h : Stands S G τ (.promise p) v) :
    G.value p = some v ∧ G.rank p ≤ τ := by
  cases h with
  | itself inert => exact absurd rfl (Value.ne_promise_of_inert inert p)
  | promise value rank => exact ⟨value, rank⟩

theorem stands_at (h : List.Forall₂ (Stands S G τ) xs vs) {x : Value} (hx : xs[i]? = some x) :
    ∃ v, vs[i]? = some v ∧ Stands S G τ x v := by
  induction h generalizing i with
  | nil => cases hx
  | @cons x' v' _ _ hhead _ ih =>
    cases i with
    | zero =>
      cases hx
      exact ⟨v', rfl, hhead⟩
    | succ i => exact ih hx

theorem stood_for_at (h : List.Forall₂ (Stands S G τ) xs vs) {v : Value} (hv : vs[i]? = some v) :
    ∃ x, xs[i]? = some x ∧ Stands S G τ x v := by
  induction h generalizing i with
  | nil => cases hv
  | @cons x' v' _ _ hhead _ ih =>
    cases i with
    | zero =>
      cases hv
      exact ⟨x', rfl, hhead⟩
    | succ i => exact ih hv

theorem inert_of_stands (h : List.Forall₂ (Stands S G τ) xs vs) : ∀ v ∈ vs, v.inert S.allows = true := by
  intro v hv
  obtain ⟨i, hi⟩ := List.mem_iff_getElem?.1 hv
  obtain ⟨x, -, hx⟩ := stood_for_at h hi
  exact hx.inert

/-- Where none of them is a promise, the operands are there. -/
theorem eq_of_stands (h : List.Forall₂ (Stands S G τ) xs vs) (hxs : xs.any Value.isPromise = false) :
    xs = vs := by
  induction h with
  | nil => rfl
  | cons hhead _ ih =>
    rw [List.any_cons, Bool.or_eq_false_iff] at hxs
    rw [ih hxs.2]
    cases hhead with
    | itself => rfl
    | promise => cases hxs.1

end

namespace Delivers

variable {S : Setting} {n : Nat} {deliver : Continuation Handler → Outcome → EvalM Unit}
  {G : Plan} {F : List (Continuation Handler)} {m : Machine} {xs vs : List Value} {τ : Nat}

/-- A promise for the tuple of the operands. -/
theorem all (h : Delivers S n deliver) (hgood : Good S G F m)
    (hxs : List.Forall₂ (Stands S G τ) xs vs) (hany : xs.any Value.isPromise = true)
    (hload : S.load G F m + xs.length ≤ n) :
    ∃ r G' m', Promise.all deliver xs m = .ok r m' ∧ Leads S xs.length 0 [] G F m G' F m' ∧
      G'.value r = some (.tuple vs) ∧ G'.rank r = τ + 1 := by
  have hne := Promise.places_ne_nil hany
  have hinert : (Value.tuple vs).inert S.allows = true := (Value.inert_tuple vs).2 (inert_of_stands hxs)
  have hlaunch := hgood.leads_launch (k := .adopt m.store.fresh.1) (ρ := τ + 1) (w := 0) hinert rfl
  have hvalue : ∀ x ∈ Promise.places 0 xs, ∃ v, G.value x.2 = some v ∧ vs[x.1]? = some v ∧
      G.rank x.2 < τ + 1 := by
    rintro ⟨i, q⟩ hx
    obtain ⟨l, rfl, hl⟩ := Promise.mem_places.1 hx
    obtain ⟨v, hv, hstands⟩ := stands_at hxs hl
    obtain ⟨hq, hrank⟩ := hstands.of_promise
    rw [Nat.zero_add]
    exact ⟨v, hq, hv, Nat.lt_succ_of_le hrank⟩
  have hfilled : ∀ i v, vs[i]? = some v →
      xs[i]? = some v ∨ ∃ q, (i, q) ∈ Promise.places 0 xs := by
    intro i v hv
    obtain ⟨x, hx, hstands⟩ := stood_for_at hxs hv
    cases hstands with
    | itself => exact .inl hx
    | @promise q => exact .inr ⟨q, Promise.mem_places.2 ⟨i, (Nat.zero_add i).symm, hx⟩⟩
  have hself : (G.track m.store.fresh.1 (.tuple vs) (τ + 1) 0).value m.store.fresh.1 =
      some (.tuple vs) := Plan.value_track_self
  have hrank : (G.track m.store.fresh.1 (.tuple vs) (τ + 1) 0).rank m.store.fresh.1 = τ + 1 :=
    Plan.rank_track_self
  have hgather := hlaunch.good.leads_gathering hself hxs.length_eq hne hfilled
  have hplan := hlaunch.advance.plan.trans hgather.advance.plan
  have hr := hgather.advance.plan.value hself
  have hrank' := (hgather.advance.plan.rank hself).trans hrank
  have hlength := Promise.length_places_le 0 xs
  have hload₁ := hlaunch.load
  have hload₂ := hgather.load
  rw [Plan.load] at hload₁
  obtain ⟨G', m', hrun, hleads⟩ := h.watch hgather.good Plan.gather_gathering_self hr
    (fun x hx => by
      obtain ⟨v, hv, hplace, hlt⟩ := hvalue x hx
      refine ⟨v, hplan.value hv, hplace, ?_⟩
      rw [hplan.rank hv, hrank']
      exact hlt)
    (by omega)
  refine ⟨m.store.fresh.1, G', m', ?_, ((hlaunch.trans hgather).trans hleads).le ?_,
    hleads.advance.plan.value hr, (hleads.advance.plan.rank hr).trans hrank'⟩
  · rw [Promise.all_of_places hne]
    exact (EvalM.bind_of_ok (x := Promise.new) rfl).trans
      ((EvalM.bind_of_ok (x := Promise.onStore _) rfl).trans (EvalM.bind_of_ok hrun))
  · rw [Plan.load]
    omega

/-- An operation on operands, now or when all of them are there. -/
theorem apply {E : Engine} (h : Delivers S n E.deliver) (hE : E.context = S.context) {op : Strict}
    {v : Value} (hgood : Good S G F m) (hxs : List.Forall₂ (Stands S G τ) xs vs)
    (hgives : op.Gives S.context S.functions vs v) (hv : v.inert S.allows = true)
    (hload : S.load G F m + (xs.length + 3) ≤ n) :
    ∃ r G' m', op.apply E xs m = .ok r m' ∧ Leads S (xs.length + 3) 0 [] G F m G' F m' ∧
      Stands S G' (τ + 2) r v := by
  cases hany : xs.any Value.isPromise with
  | false =>
    obtain rfl := eq_of_stands hxs hany
    refine ⟨v, G, m, ?_, (Leads.refl hgood).le (by omega), .itself hv⟩
    rw [Strict.apply, hany, hE]
    exact hgives m hgood.knows
  | true =>
    obtain ⟨r, G₁, m₁, hall, hleads₁, hr, hrank⟩ := h.all hgood hxs hany (by omega)
    have hload₁ := hleads₁.load
    obtain ⟨t, G₂, m₂, hderive, hleads₂, ht, htrank⟩ := h.derive (.compute op) (τ + 2) 3
      hleads₁.good hr hv
      (.compute rfl hgives Plan.value_track_self
        (by rw [Plan.rank_track_self]; omega) (by rw [Plan.weight_track_self]))
      (by omega)
    refine ⟨.promise t, G₂, m₂, ?_, (hleads₁.trans hleads₂).le (by omega), .promise ht (by omega) hv⟩
    rw [Strict.apply, hany]
    exact (EvalM.bind_of_ok hall).trans (EvalM.bind_of_ok hderive)

end Delivers

end Deferral
