import Deferral.Proofs.Transparency.Direct
import Deferral.Proofs.Transparency.Settling

/-!
# Evaluation where promises stand for values

What the rules compute over values, the engine computes over what stands for them: with fuel for the
load and for the cost of a job, the run of the job ends with something that stands for the job's value
(`Simulates`). Where it has to wait, it leaves a sound continuation behind, which is paid for out of
the job's cost. The proof goes by the fuel of the engine, with one lemma for each of its functions.
-/

set_option autoImplicit false

namespace Deferral

variable {S : Setting} {G : Plan} {F : List (Continuation Handler)} {m : Machine} {d n τ : Nat}
  {bs : List Binding}

/-- What is in scope stands for `bs`, and tasks may be nested `d` deep. -/
structure Ready (S : Setting) (G : Plan) (F : List (Continuation Handler)) (m : Machine) (d : Nat)
    (bs : List Binding) (τ : Nat) : Prop where
  good : Good S G F m
  scope : ScopeStands S G τ m.rest.env.bindings bs
  depth : d = 0 ∨ m.rest.env.callDepth + d ≤ S.context.maxCallDepth
  nested : d ≤ S.nesting

namespace Ready

variable {G' : Plan} {m' : Machine} {a b τ' : Nat}

/-- What has been bound stays bound on the way. -/
theorem lead (h : Ready S G F m d bs τ) (hleads : Leads S a b [] G F m G' F m') (hτ : τ ≤ τ') :
    Ready S G' F m' d bs τ' := by
  have henv : m'.rest.env = m.rest.env := hleads.env
  refine ⟨hleads.good, ?_, ?_, h.nested⟩
  · rw [henv]
    exact h.scope.mono hleads.advance.plan hτ
  · rw [henv]
    exact h.depth

theorem openFrame (h : Ready S G F m d bs τ) :
    Ready S G F (m.withEnv m.rest.env.openFrame) d bs τ :=
  ⟨h.good.withEnv _, h.scope, h.depth, h.nested⟩

theorem defineAll {bindings bindings' : List (String × Value)} (h : Ready S G F m d bs τ)
    (hb : NamedRel (Stands S G τ) bindings bindings') :
    Ready S G F (m.withEnv (m.rest.env.defineAll bindings)) d (addBindings bs bindings') τ := by
  refine ⟨h.good.withEnv _, ?_, ?_, h.nested⟩
  · rw [Machine.env_withEnv, bindings_defineAll, addBindings_eq, addBindings_eq]
    refine List.rel_append (List.rel_reverse ?_) h.scope
    exact List.rel_map (fun _ _ hx => ⟨hx.1, rfl, hx.2⟩) hb
  · rw [Machine.env_withEnv, Environment.defineAll_eq_grow, Environment.callDepth_grow]
    exact h.depth

end Ready

namespace Answers

variable {a b : Nat} {isScoped : Bool} {x : EvalM Value} {v : Value}

theorem mono {τ' : Nat} (h : Answers S τ a isScoped x G F m v) (ha : a ≤ b) (hτ : τ ≤ τ') :
    Answers S τ' b isScoped x G F m v := by
  obtain ⟨r, G', m', more, hrun, hleads, hmore, hr⟩ := h
  exact ⟨r, G', m', more, hrun, hleads.le (by omega), hmore, hr.mono (.refl G') (by omega)⟩

theorem of_scoped (h : Answers S τ a true x G F m v) : Answers S τ a isScoped x G F m v := by
  obtain ⟨r, G', m', more, hrun, hleads, hmore, hr⟩ := h
  exact ⟨r, G', m', more, hrun, hleads, fun _ => hmore rfl, hr⟩

theorem unscoped (h : Answers S τ a isScoped x G F m v) : Answers S τ a false x G F m v := by
  obtain ⟨r, G', m', more, hrun, hleads, -, hr⟩ := h
  exact ⟨r, G', m', more, hrun, hleads, fun hs => (by cases hs), hr⟩

theorem congr {y : EvalM Value} (h : Answers S τ a isScoped y G F m v) (hxy : x m = y m) :
    Answers S τ a isScoped x G F m v := by
  obtain ⟨r, G', m', more, hrun, hleads, hmore, hr⟩ := h
  exact ⟨r, G', m', more, hxy.trans hrun, hleads, hmore, hr⟩

/-- A computation that needs no run. -/
theorem pure (h : Good S G F m) {r : Value} (hr : Stands S G τ r v) :
    Answers S τ 0 isScoped (Pure.pure r) G F m v :=
  ⟨r, G, m, [], rfl, .refl h, fun _ => rfl, hr⟩

/-- Going on after a computation that is no more than a step. -/
theorem after {α : Type} {x : EvalM α} {r : α} {G' : Plan} {m' : Machine} {f : α → EvalM Value}
    {c saving τ' : Nat} (h : x m = .ok r m') (hleads : Leads S a saving [] G F m G' F m')
    (hf : Answers S τ' b isScoped (f r) G' F m' v) (hc : a + b ≤ c + saving)
    (hτ : τ' + b ≤ τ + c) : Answers S τ c isScoped (x >>= f) G F m v := by
  obtain ⟨r', G₂, m₂, more', hrun', hleads', hmore', hr'⟩ := hf
  refine ⟨r', G₂, m₂, more', (EvalM.bind_of_ok h).trans hrun', ?_, hmore', hr'.mono (.refl _) hτ⟩
  have htrans := hleads.trans hleads'
  rw [List.append_nil] at htrans
  exact htrans.le (by omega)

/-- Going on with what stands for a value. -/
theorem bind {f : Value → EvalM Value} {y : Value} (h : Answers S τ a true x G F m y)
    (hf : ∀ {r G' m'}, Leads S a 0 [] G F m G' F m' → Stands S G' (τ + a) r y →
      Answers S (τ + a) b isScoped (f r) G' F m' v) :
    Answers S τ (a + b) isScoped (x >>= f) G F m v := by
  obtain ⟨r, G₁, m₁, more, hrun, hleads, hmore, hr⟩ := h
  obtain rfl := hmore rfl
  exact after hrun hleads (hf hleads hr) (Nat.le_refl _) (by omega)

/-- A computation that goes on with more names. -/
theorem defining {y : EvalM Value} {bindings : List (String × Value)}
    (h : Answers S τ a isScoped y G F (m.withEnv (m.rest.env.defineAll bindings)) v)
    (hxy : x m = y (m.withEnv (m.rest.env.defineAll bindings))) :
    Answers S τ a false x G F m v := by
  obtain ⟨r, G', m', more, hrun, hleads, -, hr⟩ := h
  refine ⟨r, G', m', more ++ (bindings.map fun b => ⟨b.1, b.2, false⟩).reverse, hxy.trans hrun,
    ⟨⟨hleads.advance.plan, hleads.advance.settled, hleads.advance.functions⟩, hleads.good,
      hleads.load, ?_⟩, fun hs => (by cases hs), hr⟩
  rw [hleads.env, Machine.env_withEnv, Environment.defineAll_eq_grow, Environment.grow_grow]

/-- A computation in a frame of its own. -/
theorem inFrame (h : Answers S τ a isScoped x G F (m.withEnv m.rest.env.openFrame) v) :
    Answers S τ a true (EvalM.inFrame x) G F m v := by
  obtain ⟨r, G', m', more, hrun, hleads, -, hr⟩ := h
  exact ⟨r, G', _, [], EvalM.inFrame_of_ok hrun hleads.env, hleads.back, fun _ => rfl, hr⟩

end Answers

/-- With fuel for the load and the cost, the engine does what the rules say. -/
structure Simulates (S : Setting) (n : Nat) (E : Engine) : Prop where
  context : E.context = S.context
  eval : ∀ {G F m d bs τ e v c}, Computes S.context S.functions d bs (.eval e) v c →
    Ready S G F m d bs τ → S.load G F m + c ≤ n → Answers S τ c true (E.eval e) G F m v
  proceed : ∀ {G F m d bs τ w w' v c}, Computes S.context S.functions d bs (.proceed w') v c →
    w.Rel (Stands S G τ) w' → Ready S G F m d bs τ → S.load G F m + c ≤ n →
    Answers S τ c w.isScoped (E.proceed w) G F m v
  resume : ∀ {G F m d bs τ frame frame' x v c},
    Computes S.context S.functions d bs (.resume frame' x) v c → frame.Rel (Stands S G τ) frame' →
    Ready S G F m d bs τ →
    S.load G F m + (c + 4 * frame.waits m.store.isPending m.rest.env.bindings) ≤ n →
    Answers S τ (c + 4 * frame.waits m.store.isPending m.rest.env.bindings) frame.isScoped
      (E.resume frame x) G F m v
  /-- The function of a task. -/
  lambda : ∀ {m : Machine} (body : Expr), m.rest.interrupted = false → 0 < n →
    E.eval (.lambda none [] body) m = .ok (.function ⟨m.rest.functions.size⟩)
      (m.withFunction ⟨anonymousName, .code [] body, m.rest.env.bindings, none⟩)
  spawn : ∀ {G F m d bs τ id captures body v c},
    m.function? id = some ⟨anonymousName, .code [] body, captures, none⟩ →
    Computes S.context S.functions d bs (.eval body) v c → v.inert S.allows = true →
    Good S G F m → ScopeStands S G τ captures bs →
    m.rest.env.callDepth + (d + 1) ≤ S.context.maxCallDepth → d + 1 ≤ S.nesting →
    S.load G F m + (c + 3) ≤ n → Answers S τ (c + 3) true (E.resume .spawn (.function id)) G F m v
  deliver : Delivers S n E.deliver

/-! ## Waiting -/

section

variable {E : Engine} {x y v : Value} {frame frame' : Frame} {c : Nat}

/-- What is left to do is left with a promise. -/
theorem Delivers.suspend (h : Delivers S n E.deliver) {q : PromiseId} {N : Nat}
    (hready : Ready S G F m d bs τ) (hq : G.value q = some y) (hrank : G.rank q ≤ τ + 1)
    (hc : Computes S.context S.functions d bs (.resume frame' y) v c)
    (hframe : frame.Rel (Stands S G τ) frame') (hv : v.inert S.allows = true)
    (hN : c + 4 * frame.waits (m.store.dueBeside q) m.rest.env.bindings ≤ N)
    (hload : S.load G F m + (N + 3) ≤ n) :
    Answers S τ (N + 3) true (E.whenReady (.promise q) frame) G F m v := by
  have hle : G.Le (G.track m.store.fresh.1 v (τ + N + 2) (N + 3)) :=
    Plan.le_track hready.good.value_fresh
  have hsound : Sound S (G.track m.store.fresh.1 v (τ + N + 2) (N + 3)) (m.store.dueBeside q) y
      (G.rank q) (.derive m.store.fresh.1 (.resume frame m.rest.env)) := by
    refine .resume hc Plan.value_track_self (hready.scope.mono hle (Nat.le_succ τ))
      (hframe.mono fun hx => hx.mono hle (Nat.le_succ τ)) hready.depth hready.nested hrank ?_ ?_
    · rw [Plan.rank_track_self]
      omega
    · rw [Plan.weight_track_self]
      omega
  obtain ⟨t, G', m', hrun, hleads, ht, htrank⟩ := h.derive _ _ _ hready.good hq hv hsound hload
  refine ⟨.promise t, G', m', [], ?_, hleads, fun _ => rfl, .promise ht (by omega) hv⟩
  have henv : EvalM.environment m = .ok m.rest.env m := rfl
  exact (EvalM.bind_of_ok henv).trans (EvalM.bind_of_ok hrun)

/-- Going on with what stands for a value, now or when it is there. -/
theorem Simulates.await (h : Simulates S n E)
    (hc : Computes S.context S.functions d bs (.await y frame') v c) (hx : Stands S G τ x y)
    (hframe : frame.Rel (Stands S G τ) frame') (hwaits : ∀ due bs, frame.waits due bs = 0)
    (hready : Ready S G F m d bs τ) (hload : S.load G F m + c ≤ n) :
    Answers S τ c frame.isScoped (E.whenReady x frame) G F m v := by
  cases hc with
  | @await _ _ _ _ _ c hc hv =>
    cases hx with
    | itself inert =>
      rw [Engine.whenReady_of_not_promise (Value.ne_promise_of_inert inert)]
      have hrun := h.resume hc hframe hready (by rw [hwaits]; omega)
      rw [hwaits] at hrun
      exact hrun.mono (by omega) (Nat.le_refl _)
    | promise value rank =>
      exact (h.deliver.suspend hready value (by omega) hc hframe hv (by rw [hwaits]; omega)
        hload).of_scoped

/-- The values of expressions, one after the other. -/
theorem Simulates.items (h : Simulates S n E) {es : List Expr} {vs : List Value}
    (hc : Computes S.context S.functions d bs (.items es) (.tuple vs) c)
    (hready : Ready S G F m d bs τ) (hload : S.load G F m + c ≤ n) :
    ∃ xs G' m', E.evalItems es m = .ok xs m' ∧ Leads S c xs.length [] G F m G' F m' ∧
      List.Forall₂ (Stands S G' (τ + c)) xs vs := by
  induction es generalizing G m τ c vs with
  | nil =>
    cases hc
    exact ⟨[], G, m, rfl, .refl hready.good, .nil⟩
  | cons e rest ih =>
    cases hc with
    | @cons _ _ _ _ v vs c₁ c₂ hhead htail =>
      obtain ⟨x, G₁, m₁, more, hrun, hleads, hmore, hx⟩ := h.eval hhead hready (by omega)
      obtain rfl := hmore rfl
      have hload' := hleads.load
      obtain ⟨xs, G₂, m₂, hrest, hleads', hxs⟩ :=
        ih htail (hready.lead hleads (Nat.le_add_right τ c₁)) (by omega)
      refine ⟨x :: xs, G₂, m₂, ?_, (hleads.trans hleads').le ?_, ?_⟩
      · rw [Engine.evalItems, EvalM.bind_of_ok hrun, EvalM.bind_of_ok hrest]
        rfl
      · rw [List.length_cons]
        omega
      · refine .cons (hx.mono hleads'.advance.plan (by omega)) ?_
        exact hxs.imp fun _ _ hu => hu.mono (.refl _) (by omega)

/-- Going on with the values of expressions, as a tuple, now or when all of them are there. -/
theorem Simulates.whenItems (h : Simulates S n E) {es : List Expr} {ks : List Value} {c₁ c₂ : Nat}
    {now : List Value → EvalM Value}
    (hitems : Computes S.context S.functions d bs (.items es) (.tuple ks) c₁)
    (hc : Computes S.context S.functions d bs (.await (.tuple ks) frame') v c₂)
    (hframe : frame.Rel (Stands S G τ) frame') (hwaits : ∀ due bs, frame.waits due bs = 0)
    (hready : Ready S G F m d bs τ) (hload : S.load G F m + (c₁ + c₂) ≤ n)
    (hnow : ∀ {G' m'}, Leads S c₁ 0 [] G F m G' F m' →
      Answers S (τ + c₁) c₂ frame.isScoped (now ks) G' F m' v) :
    Answers S τ (c₁ + c₂) frame.isScoped
      (E.evalItems es >>= fun ks => E.whenAllReady ks frame now) G F m v := by
  obtain ⟨xs, G₁, m₁, hrun, hleads, hxs⟩ := h.items hitems hready (by omega)
  have hload₁ := hleads.load
  cases hany : xs.any Value.isPromise with
  | false =>
    obtain rfl := eq_of_stands hxs hany
    refine .after hrun hleads ((hnow (hleads.le (by omega))).congr ?_) (by omega) (by omega)
    rw [Engine.whenAllReady, hany]
    rfl
  | true =>
    obtain ⟨p, G₂, m₂, hall, hleads₂, hp, hrank⟩ := h.deliver.all hleads.good hxs hany (by omega)
    have hload₂ := hleads₂.load
    have hleads₁₂ := hleads.trans hleads₂
    have hle := hleads₁₂.advance.plan
    cases hc with
    | @await _ _ _ _ _ c hc hv =>
      obtain ⟨r, G₃, m₃, more, hrun₃, hleads₃, hmore, hr⟩ := h.deliver.suspend (N := c)
        (hready.lead hleads₁₂ (Nat.le_add_right τ c₁)) hp (by omega) hc
        (hframe.mono fun hx => hx.mono hle (Nat.le_add_right τ c₁)) hv (by rw [hwaits]; omega)
        (by omega)
      obtain rfl := hmore rfl
      refine ⟨r, G₃, m₃, [], ?_, (hleads₁₂.trans hleads₃).le (by omega), fun _ => rfl,
        hr.mono (.refl _) (by omega)⟩
      rw [EvalM.bind_of_ok hrun, Engine.whenAllReady, hany]
      exact (EvalM.bind_of_ok hall).trans hrun₃

end

/-! ## Matching -/

/-- The promise stands for `w`, and a match of `x` may look at it. -/
def Refers (G : Plan) (τ : Nat) (x : Value) (bindings : List Binding) (q : PromiseId) (w : Value) :
    Prop :=
  G.value q = some w ∧ G.rank q ≤ τ ∧ (x = .promise q ∨ ∃ b ∈ bindings, b.value = .promise q)

section

variable {x y v w : Value} {q : PromiseId} {bindings : List Binding}

theorem Stands.shows (h : Stands S G τ y v) (hgood : Good S G F m)
    (hy : y = x ∨ ∃ b ∈ m.rest.env.bindings, b.value = y) :
    m.sight.Shows S.allows (Refers G τ x m.rest.env.bindings) y v := by
  cases h with
  | itself inert => exact .itself inert
  | @promise q _ value rank inert =>
    have href : Refers G τ x m.rest.env.bindings q v := by
      refine ⟨value, rank, ?_⟩
      rcases hy with rfl | hy
      · exact .inl rfl
      · exact .inr hy
    rcases hgood.states value with hs | ⟨ks, hs, -⟩
    · exact .held href (by simp only [Machine.sight, Store.outcome?, hs, PromiseState.outcome?]) inert
    · exact .awaited href (by simp only [Machine.sight, Store.outcome?, hs, PromiseState.outcome?])
        inert

theorem Stands.of_shows {sight : Sight} (h : sight.Shows S.allows (Refers G τ x bindings) y v) :
    Stands S G τ y v := by
  cases h with
  | itself inert => exact .itself inert
  | held ref _ inert => exact .promise ref.1 ref.2.1 inert
  | awaited ref _ inert => exact .promise ref.1 ref.2.1 inert

/-- What a name is bound to stands for what it is bound to on the other side. -/
theorem ScopeStands.find {bs₀ : List Binding} (h : ScopeStands S G τ bs₀ bs) (name : String) :
    Option.Rel (fun b b' => b ∈ bs₀ ∧ b.Rel (Stands S G τ) b')
      (bs₀.find? (·.name == name)) (bs.find? (·.name == name)) := by
  induction h with
  | nil => exact .none
  | @cons b b' rest rest' hb _ ih =>
    rw [List.find?_cons, List.find?_cons, ← hb.name]
    cases b.name == name with
    | true => exact .some ⟨.head _, hb⟩
    | false =>
      simp only
      generalize rest.find? (·.name == name) = found at ih
      generalize rest'.find? (·.name == name) = found' at ih
      cases ih with
      | none => exact .none
      | some hfound => exact .some ⟨.tail _ hfound.1, hfound.2⟩

/-- What a name is bound to. -/
theorem Ready.identifier (h : Ready S G F m d bs τ) {name : String} {b : Binding}
    (found : bs.find? (·.name == name) = some b) :
    Answers S τ 0 true (Engine.evalIdentifier name) G F m b.value := by
  have hfind := h.scope.find name
  rw [found] at hfind
  cases hb : m.rest.env.bindings.find? (·.name == name) with
  | none =>
    rw [hb] at hfind
    cases hfind
  | some b' =>
    rw [hb] at hfind
    cases hfind with
    | some hrel =>
      have hget : m.rest.env.get? name = some b'.value := by
        rw [Environment.get?, Environment.binding?, hb]
        rfl
      refine (Answers.pure h.good hrel.2.value).congr ?_
      simp only [Engine.evalIdentifier, EvalM.environment, EvalM.gets, Bind.bind, EStateM.bind, hget]

theorem Ready.boundShows (h : Ready S G F m d bs τ) (x : Value) (look : PromiseId → Option Outcome) :
    m.sight.BoundShows ⟨look, userBinding? bs⟩ S.allows (Refers G τ x m.rest.env.bindings) := by
  intro name
  have hfind := h.scope.find name
  change Option.Rel _ (m.rest.env.getUser? name) (userBinding? bs name)
  simp only [userBinding?, Environment.getUser?, Environment.binding?]
  generalize m.rest.env.bindings.find? (·.name == name) = found at hfind
  generalize bs.find? (·.name == name) = found' at hfind
  cases hfind with
  | none => exact .none
  | @some b b' hb =>
    simp only [hb.2.builtin]
    cases b'.builtin with
    | true => exact .none
    | false => exact .some (hb.2.value.shows h.good (.inr ⟨b, hb.1, rfl⟩))

/-- A match that stops at a promise has one promise less to wait for once that is there. -/
theorem Refers.waits_lt {s : Store Handler} (h : Refers G τ x bindings q w)
    (hq : s.isPending q = true) :
    x.waits (s.dueBeside q) + scopeWaits (s.dueBeside q) bindings <
      x.waits s.isPending + scopeWaits s.isPending bindings := by
  have hmono : ∀ p, s.dueBeside q p = true → s.isPending p = true := by
    intro p hp
    rw [Store.dueBeside, Bool.and_eq_true] at hp
    exact hp.1
  have hself : s.dueBeside q q = false := by
    simp [Store.dueBeside]
  rcases h.2.2 with rfl | ⟨b, hb, hv⟩
  · have hscope := scopeWaits_mono hmono bindings
    simp only [Value.waits, hself, hq, Bool.toNat_false, Bool.toNat_true]
    omega
  · have hscope := scopeWaits_lt hmono hq hself hb hv
    have hx := Value.waits_mono hmono x
    omega

theorem Ready.waits_le (h : Ready S G F m d bs τ) (x : Value) :
    x.waits m.store.isPending + scopeWaits m.store.isPending m.rest.env.bindings ≤ bs.length + 1 := by
  have hx := Value.waits_le_one m.store.isPending x
  have hscope := scopeWaits_le m.store.isPending m.rest.env.bindings
  rw [h.scope.length_eq] at hscope
  omega

/-- A match that stops at a promise is left with it. Having one promise less to wait for pays for
waiting once more. -/
theorem Delivers.retry {E : Engine} {frame frame' : Frame} {c : Nat} (h : Delivers S n E.deliver)
    (hready : Ready S G F m d bs τ) (href : Refers G τ x m.rest.env.bindings q w)
    (hq : m.sight.outcome? q = none)
    (hc : Computes S.context S.functions d bs (.resume frame' w) v (c + 1))
    (hframe : frame.Rel (Stands S G τ) frame') (hv : v.inert S.allows = true)
    (hwaits : ∀ due, frame.waits due m.rest.env.bindings =
      x.waits due + scopeWaits due m.rest.env.bindings)
    (hload : S.load G F m +
      (c + 4 * (x.waits m.store.isPending + scopeWaits m.store.isPending m.rest.env.bindings)) ≤ n) :
    Answers S τ (c + 4 * (x.waits m.store.isPending +
      scopeWaits m.store.isPending m.rest.env.bindings)) true (E.whenReady (.promise q) frame) G F m
      v := by
  have hpending : m.store.isPending q = true := by
    rcases hready.good.fulfilled_or_pending href.1 with hs | hs
    · simp [Machine.sight, Store.outcome?, hs, PromiseState.outcome?] at hq
    · exact hs
  have hlt := href.waits_lt hpending
  have hsuspend := h.suspend hready href.1 (Nat.le_succ_of_le href.2.1) hc hframe hv (Nat.le_refl _)
    (by rw [hwaits]; omega)
  refine hsuspend.mono ?_ (Nat.le_refl _)
  rw [hwaits]
  omega

end

end Deferral
