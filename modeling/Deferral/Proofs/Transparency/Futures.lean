import Deferral.Proofs.Transparency.Start

/-!
# Programs over promises

A transparent program without tasks cannot tell promises from values (`future_transparent`): where
some of its names are bound to promises instead of data, it ends with a value or a promise, and when
the host has given the promises the data, in whatever order, what it has ended with has come to the
value that the program computes from the data itself.
-/

set_option autoImplicit false

namespace Deferral

/-- The host gives promises their values, one after the other. -/
def Engine.fulfilAll (E : Engine) : List (PromiseId × Value) → EvalM Unit
  | [] => pure ()
  | (p, v) :: rest => do
    Promise.fulfil E.deliver p (.ok v)
    fulfilAll E rest

/-- The second list is the first with promises for the values of some names that the program has
bound; the third says which promise is held back for which value. -/
inductive Deferred : List Binding → List Binding → List (PromiseId × Value) → Prop where
  | nil : Deferred [] [] []
  | keep (b : Binding) {bs bs' : List Binding} {held : List (PromiseId × Value)}
      (rest : Deferred bs bs' held) : Deferred (b :: bs) (b :: bs') held
  | defer (name : String) (v : Value) (p : PromiseId) {bs bs' : List Binding}
      {held : List (PromiseId × Value)} (rest : Deferred bs bs' held) :
      Deferred (⟨name, v, false⟩ :: bs) (⟨name, .promise p, false⟩ :: bs') ((p, v) :: held)

namespace Deferred

variable {bs bs' : List Binding} {held : List (PromiseId × Value)}

theorem inert (h : Deferred bs bs' held) {allowed : FunctionId → Bool}
    (hbs : ∀ b ∈ bs, b.value.inert allowed = true) : ∀ x ∈ held, x.2.inert allowed = true := by
  induction h with
  | nil => exact fun _ hx => by cases hx
  | keep b _ ih => exact ih fun b hb => hbs b (.tail _ hb)
  | defer name v p _ ih =>
    exact List.forall_mem_cons.2 ⟨hbs _ (.head _), ih fun b hb => hbs b (.tail _ hb)⟩

/-- The promises stand for the values they are held back for. -/
theorem stands (h : Deferred bs bs' held) {S : Setting} {G : Plan} {τ : Nat}
    (hbs : ∀ b ∈ bs, b.value.inert S.allows = true)
    (hheld : ∀ x ∈ held, G.value x.1 = some x.2 ∧ G.rank x.1 ≤ τ) : ScopeStands S G τ bs' bs := by
  induction h with
  | nil => exact .nil
  | keep b _ ih =>
    rw [List.forall_mem_cons] at hbs
    exact .cons ⟨rfl, rfl, .itself hbs.1⟩ (ih hbs.2 hheld)
  | defer name v p _ ih =>
    rw [List.forall_mem_cons] at hbs hheld
    exact .cons ⟨rfl, rfl, .promise hheld.1.1 hheld.1.2 hbs.1⟩ (ih hbs.2 hheld.2)

end Deferred

/-- Promises that have been held back are given their values as planned. -/
theorem Simulates.fulfilAll {S : Setting} {G : Plan} {F : List (Continuation Handler)} {m : Machine}
    {n : Nat} {E : Engine} (h : Simulates S n E) {order : List (PromiseId × Value)}
    (hgood : Good S G ((order.map fun x => .adopt x.1) ++ F) m)
    (hvalue : ∀ x ∈ order, G.value x.1 = some x.2)
    (hload : S.load G ((order.map fun x => .adopt x.1) ++ F) m ≤ n) :
    Runs S 0 (E.fulfilAll order) G ((order.map fun x => .adopt x.1) ++ F) m F := by
  induction order generalizing G m with
  | nil => exact ⟨G, m, rfl, .refl hgood⟩
  | cons x rest ih =>
    rw [List.forall_mem_cons] at hvalue
    obtain ⟨G₁, m₁, hrun, hleads⟩ :=
      h.deliver.fulfilItself hgood hvalue.1 (Nat.le_succ_of_le hload)
    obtain ⟨G₂, m₂, hrest, hleads'⟩ := ih hleads.good
      (fun y hy => hleads.advance.plan.value (hvalue.2 y hy)) (Nat.le_trans hleads.load hload)
    exact ⟨G₂, m₂, (EvalM.bind_of_ok hrun).trans hrest, hleads.trans hleads'⟩

/-- Evaluation is transparent to promises. If a program computes `v` from data, then it does so from
promises for some of the data, too, once these have been given their values, in any order. At the start
the promises are pending, and nothing waits for them. -/
theorem future_transparent {context : Context} {e : Expr} {m m' : Machine} {v : Value} {n : Nat}
    {s : Store Handler} {bs : List Binding} {held : List (PromiseId × Value)}
    (he : e.Transparent 0) (hm : m.Ordinary) (hrun : (engine context n).eval e m = .ok v m')
    (hdeferred : Deferred m.rest.env.bindings bs held) (hdistinct : (held.map Prod.fst).Nodup)
    (hheld : ∀ x ∈ held, s.Has x.1 ∧ s.state x.1 = .pending []) :
    ∃ N, ∀ fuel ≥ N, ∃ r m₁,
      (engine context fuel).eval e
        ((m.withStore s).withEnv { m.rest.env with bindings := bs }) = .ok r m₁ ∧
      ∀ order, order.Perm held → ∃ m₂, (engine context fuel).fulfilAll order m₁ = .ok () m₂ ∧
        ∃ w, m₂.lookThrough r = some (.ok w) ∧ (w == v) = true := by
  obtain ⟨-, -, c, hc⟩ := (faithful_engine context m.rest.functions n).eval he hm.plain
    (by rw [he.erase_eq_self]; exact hrun)
  have hquiet := quiet_of_eval hrun
  have hinert := hdeferred.inert hm.plain.inert
  let m₀ : Machine := (m.withStore s).withEnv { m.rest.env with bindings := bs }
  let S : Setting := .ofHeld context m₀ held 0 fun h => absurd h (Nat.lt_irrefl 0)
  have hgood : Good S (.ofHeld held) (held.map fun x => .adopt x.1) m₀ :=
    good_ofHeld hquiet hinert hheld
  have hscope : ScopeStands S (.ofHeld held) 0 bs m.rest.env.bindings :=
    hdeferred.stands hm.plain.inert fun x hx => ⟨Plan.value_ofHeld hdistinct hx, Nat.le_refl 0⟩
  refine ⟨S.load (.ofHeld held) (held.map fun x => .adopt x.1) m₀ + c, fun fuel hfuel => ?_⟩
  have hsimulates := simulates_engine S fuel
  obtain ⟨r, G, m₁, more, hrun₁, hleads, -, hr⟩ :=
    hsimulates.eval hc ⟨hgood, hscope, .inl rfl, Nat.le_refl 0⟩ hfuel
  refine ⟨r, m₁, hrun₁, fun order horder => ?_⟩
  have hflight : (held.map fun x => Continuation.adopt (η := Handler) x.1).Perm
      ((order.map fun x => .adopt x.1) ++ []) := by
    rw [List.append_nil]
    exact (horder.map _).symm
  have hload := hleads.load
  rw [Setting.load_perm hflight] at hload
  obtain ⟨G₂, m₂, hrun₂, hleads₂⟩ := hsimulates.fulfilAll (hleads.good.perm hflight)
    (fun x hx => hleads.advance.plan.value (Plan.value_ofHeld hdistinct (horder.mem_iff.1 hx)))
    (by omega)
  -- A task would have to be nested, and nothing is.
  have htasks : S.tasks m₂ = [] := by
    refine List.eq_nil_iff_forall_not_mem.2 fun task ht => ?_
    obtain ⟨-, -, -, -, -, nested, -⟩ := hleads₂.good.tasks task ht
    exact absurd nested (Nat.not_succ_le_zero _)
  exact ⟨m₂, hrun₂, v, hleads₂.good.lookThrough htasks (hr.mono hleads₂.advance.plan (Nat.le_refl _)),
    Value.beq_refl v⟩

/-! A selection whose pattern compares two promises, for names that are bound to the same number. -/

/-- A native, and two names for a number. -/
def twoNames : Machine :=
  ⟨.empty, ⟨⟨[⟨"x", .int 2, false⟩, ⟨"y", .int 2, false⟩, ⟨"identity", .function ⟨0⟩, true⟩], [], [],
    none⟩, #[.ofNative "identity" .identity 1], [], fun _ => true, false, [], []⟩⟩

/-- The sum of `x` and `y`, if they are the same. -/
def doubled : Expr :=
  .select (.identifier "x") [.mk (.bind "y") [(none,
    .call (.identifier "identity") [.binary .add (.identifier "x") (.identifier "y")] none)]]

theorem future_transparent_doubled :
    ∃ N, ∀ fuel ≥ N, ∃ r m₁,
      (engine ⟨10, .queued, fun _ _ => ⟨.value .unit, [], false⟩⟩ fuel).eval doubled
        ((twoNames.withStore ⟨#[.pending [], .pending []], #[]⟩).withEnv
          { twoNames.rest.env with
            bindings := [⟨"x", .promise ⟨1⟩, false⟩, ⟨"y", .promise ⟨0⟩, false⟩,
              ⟨"identity", .function ⟨0⟩, true⟩] }) = .ok r m₁ ∧
      ∀ order, order.Perm [(⟨1⟩, .int 2), (⟨0⟩, .int 2)] → ∃ m₂,
        (engine ⟨10, .queued, fun _ _ => ⟨.value .unit, [], false⟩⟩ fuel).fulfilAll order m₁ =
          .ok () m₂ ∧ ∃ w, m₂.lookThrough r = some (.ok w) ∧ (w == .int 4) = true := by
  refine future_transparent (n := 5) (m := twoNames) ?_ ?_ rfl
    (.defer _ _ _ (.defer _ _ _ (.keep _ .nil))) (by decide) ?_
  · refine .select (.identifier _) (List.forall_mem_singleton.2 ?_)
    exact .call none (.identifier _)
      (List.forall_mem_singleton.2 (.binary .add (.identifier _) (.identifier _)))
  · exact List.forall_mem_cons.2 ⟨rfl, List.forall_mem_cons.2 ⟨rfl, List.forall_mem_singleton.2 rfl⟩⟩
  · exact List.forall_mem_cons.2
      ⟨⟨Nat.one_lt_two, rfl⟩, List.forall_mem_singleton.2 ⟨Nat.zero_lt_two, rfl⟩⟩

end Deferral
