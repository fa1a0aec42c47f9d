import Deferral.Proofs.Transparency.Invariant
import Mathlib.Algebra.Order.BigOperators.Group.List

/-!
# How the invariant is kept

Each step on the store, the queue and the functions takes a good machine to a good machine. The lemmas
are named for the step, and say what it does to the continuations in flight: registering a
continuation lands it, settling a promise puts what waited for it into flight, and so on.
-/

set_option autoImplicit false

namespace Deferral

namespace Setting

variable {S : Setting} {F : List (Continuation Handler)} {s : Store Handler} {p : PromiseId}
  {k : Continuation Handler} {x : PromiseState Handler}

/-- The continuation waits for another promise. -/
def WaitsBeside (S : Setting) (p : PromiseId) (s : Store Handler) (k : Continuation Handler) : Prop :=
  ∃ q ks, q ≠ p ∧ S.watches q = true ∧ s.state q = .pending ks ∧ k ∈ ks

theorem outstanding_iff (hp : S.watches p = true) :
    S.Outstanding F s k ↔ k ∈ F ∨ k ∈ (s.state p).waiting ∨ S.WaitsBeside p s k := by
  constructor
  · rintro (hk | ⟨q, ks, hq, hs, hk⟩)
    · exact .inl hk
    · by_cases hqp : q = p
      · subst hqp
        exact .inr (.inl (by rw [hs]; exact hk))
      · exact .inr (.inr ⟨q, ks, hqp, hq, hs, hk⟩)
  · rintro (hk | hk | ⟨q, ks, -, hq, hs, hk⟩)
    · exact .inl hk
    · cases hs : s.state p with
      | pending ks =>
        rw [hs] at hk
        exact .inr ⟨p, ks, hp, hs, hk⟩
      | fulfilled v =>
        rw [hs] at hk
        cases hk
      | failed e =>
        rw [hs] at hk
        cases hk
    · exact .inr ⟨q, ks, hq, hs, hk⟩

theorem waitsBeside_setState : S.WaitsBeside p (s.setState p x) k ↔ S.WaitsBeside p s k := by
  constructor
  · rintro ⟨q, ks, hqp, hq, hs, hk⟩
    rw [Store.state_setState_ne hqp] at hs
    exact ⟨q, ks, hqp, hq, hs, hk⟩
  · rintro ⟨q, ks, hqp, hq, hs, hk⟩
    exact ⟨q, ks, hqp, hq, by rw [Store.state_setState_ne hqp]; exact hs, hk⟩

theorem outstanding_setState (hp : S.watches p = true) (hs : s.Has p) :
    S.Outstanding F (s.setState p x) k ↔ k ∈ F ∨ k ∈ x.waiting ∨ S.WaitsBeside p s k := by
  rw [outstanding_iff hp, Store.state_setState_self hs, waitsBeside_setState]

theorem outstanding_congr {s' : Store Handler} (h : ∀ p, s'.state p = s.state p) :
    S.Outstanding F s' k ↔ S.Outstanding F s k := by
  simp only [Outstanding, h]

theorem outstanding_cons {k' : Continuation Handler} :
    S.Outstanding (k' :: F) s k ↔ k = k' ∨ S.Outstanding F s k := by
  simp only [Outstanding, List.mem_cons, or_assoc]

end Setting

theorem Store.isPending_of_state {s : Store Handler} {p : PromiseId} {ks : List (Continuation Handler)}
    (h : s.state p = .pending ks) : s.isPending p = true := by
  rw [isPending, h]
  rfl

theorem Store.pending_of_isPending {s : Store Handler} {p : PromiseId} (h : s.isPending p = true) :
    ∃ ks, s.state p = .pending ks := by
  unfold isPending at h
  cases hs : s.state p with
  | pending ks => exact ⟨ks, rfl⟩
  | fulfilled v =>
    rw [hs] at h
    cases h
  | failed e =>
    rw [hs] at h
    cases h

/-- Changing the state of a promise that is pending makes no other promise pending. -/
theorem Store.isPending_of_setState {s : Store Handler} {p q : PromiseId}
    {ks : List (Continuation Handler)} {x : PromiseState Handler} (hp : s.state p = .pending ks)
    (hq : (s.setState p x).isPending q = true) : s.isPending q = true := by
  by_cases hqp : q = p
  · subst hqp
    exact isPending_of_state hp
  · rwa [isPending, state_setState_ne hqp] at hq

theorem Store.dueBeside_mono {s s' : Store Handler} {p : PromiseId}
    (h : ∀ q, s'.isPending q = true → s.isPending q = true) (q : PromiseId)
    (hq : s'.dueBeside p q = true) : s.dueBeside p q = true := by
  unfold dueBeside at hq ⊢
  rw [Bool.and_eq_true] at hq ⊢
  exact ⟨h q hq.1, hq.2⟩

theorem Continuation.Targets.unique {p q : PromiseId} {k : Continuation Handler} (hp : k.Targets p)
    (hq : k.Targets q) : p = q := by
  cases k with
  | adopt t => exact hp.symm.trans hq
  | derive t handler => exact hp.symm.trans hq
  | gather id place => exact hp.elim
  | notify handler => exact hp.elim

/-- A continuation that is to settle a promise brings no operand of a gather. -/
theorem Continuation.sum_feeds_of_targets {p : PromiseId} {k : Continuation Handler} (h : k.Targets p)
    (F : List (Continuation Handler)) (id : GatherId) :
    ((k :: F).map (feeds id)).sum = (F.map (feeds id)).sum := by
  rw [List.map_cons, List.sum_cons, feeds_of_targets h, Nat.zero_add]

/-! ## What each part of the invariant needs -/

theorem TaskSound.mono {S : Setting} {G G' : Plan} {m m' : Machine} {task : Task}
    (h : TaskSound S G m task) (hG : G.Le G')
    (hf : ∀ {id f}, m.function? id = some f → m'.function? id = some f) :
    TaskSound S G' m' task := by
  obtain ⟨function, computes, value, scope, depth, nested, rank, weight⟩ := h
  refine .mk (hf function) computes (hG.value value) (scope.mono hG (Nat.le_refl _)) depth nested ?_ ?_
  · rw [hG.rank value]
    exact rank
  · rw [hG.weight value]
    exact weight

theorem GatherGood.mono {S : Setting} {G G' : Plan} {F F' : List (Continuation Handler)}
    {s s' : Store Handler} {id : GatherId} {r : PromiseId} {vs : List Value} {g : Gather}
    (h : GatherGood S G F s id r vs g) (hG : G.Le G')
    (hmissing : S.total s' (Continuation.feeds id) + (F'.map (Continuation.feeds id)).sum =
      S.total s (Continuation.feeds id) + (F.map (Continuation.feeds id)).sum)
    (hout : ∀ i, S.Outstanding F s (.gather id i) → S.Outstanding F' s' (.gather id i)) :
    GatherGood S G' F' s' id r vs g := by
  refine ⟨h.result, hG.value h.value, h.length, h.remaining.trans hmissing.symm, h.done,
    fun i v hi => ?_⟩
  rcases h.places i v hi with hfilled | hk
  · exact .inl hfilled
  · exact .inr (hout i hk)

/-- A step that leaves the tasks alone, and the gathers that are there, need only account for the
continuations that are to settle a promise. -/
theorem Supported.mono {S : Setting} {G G' : Plan} {F F' : List (Continuation Handler)}
    {m m' : Machine} {p : PromiseId} (h : Supported S G F m p) (hG : G.Le G')
    (hout : ∀ k, S.Outstanding F m.store k → k.Targets p → Supported S G' F' m' p)
    (htasks : S.tasks m' = S.tasks m)
    (hgathers : ∀ {id : GatherId} {g : Gather}, m.store.gathers[id.index]? = some g →
      m'.store.gathers[id.index]? = some g) : Supported S G' F' m' p := by
  cases h with
  | continuation out target => exact hout _ out target
  | task queued target => exact .task (htasks ▸ queued) target
  | gather gather found undone => exact .gather (hG.gather gather) (hgathers found) undone

namespace Good

variable {S : Setting} {G : Plan} {F : List (Continuation Handler)} {m : Machine} {p : PromiseId}
  {v : Value} {k : Continuation Handler} {ks : List (Continuation Handler)}

theorem has (h : Good S G F m) (hv : G.value p = some v) : S.watches p = true ∧ m.store.Has p :=
  (h.watched p).1 ⟨v, hv⟩

/-- A promise that is planned for holds its value or is pending. -/
theorem fulfilled_or_pending (h : Good S G F m) (hv : G.value p = some v) :
    m.store.state p = .fulfilled v ∨ m.store.isPending p = true := by
  rcases h.states hv with hs | ⟨ks, hs, -⟩
  · exact .inl hs
  · exact .inr (Store.isPending_of_state hs)

theorem withEnv (h : Good S G F m) (env : Environment) : Good S G F (m.withEnv env) where
  quiet := h.quiet
  knows := h.knows
  older := h.older
  start := h.start
  watched := h.watched
  inert := h.inert
  states := h.states
  support hv hs := (h.support hv hs).mono (.refl G) (fun _ out target => .continuation out target) rfl
    fun found => found
  aimed := h.aimed
  known := h.known
  gathers := h.gathers
  tasks task ht := (h.tasks task ht).mono (.refl G) fun hf => hf

/-- What the invariant says of states, once that of one pending promise has changed. -/
theorem states_setState {x : PromiseState Handler} (h : Good S G F m) (hv : G.value p = some v)
    (hp : m.store.state p = .pending ks)
    (hx : x = .fulfilled v ∨ ∃ ks', x = .pending ks' ∧
      ∀ k ∈ ks', Sound S G (m.store.dueBeside p) v (G.rank p) k)
    {q : PromiseId} {w : Value} (hq : G.value q = some w) :
    (m.store.setState p x).state q = .fulfilled w ∨
      ∃ ks', (m.store.setState p x).state q = .pending ks' ∧
        ∀ k ∈ ks', Sound S G ((m.store.setState p x).dueBeside q) w (G.rank q) k := by
  have hsound : ∀ {k}, Sound S G (m.store.dueBeside q) w (G.rank q) k →
      Sound S G ((m.store.setState p x).dueBeside q) w (G.rank q) k := fun hk =>
    hk.mono (.refl G) (Store.dueBeside_mono fun _ => Store.isPending_of_setState hp)
  by_cases hqp : q = p
  · subst hqp
    obtain rfl : v = w := Option.some.inj (hv.symm.trans hq)
    rw [Store.state_setState_self (h.has hv).2]
    rcases hx with rfl | ⟨ks', rfl, hks'⟩
    · exact .inl rfl
    · exact .inr ⟨ks', rfl, fun k hk => hsound (hks' k hk)⟩
  · rw [Store.state_setState_ne hqp]
    rcases h.states hq with hs | ⟨ks', hs, hks'⟩
    · exact .inl hs
    · exact .inr ⟨ks', hs, fun k hk => hsound (hks' k hk)⟩

/-- Changing the state of one pending promise, and what is in flight, so that the same continuations
are under way but for those that target that promise. -/
theorem setState {F' : List (Continuation Handler)} {x : PromiseState Handler} (h : Good S G F m)
    (hv : G.value p = some v) (hp : m.store.state p = .pending ks)
    (hx : x = .fulfilled v ∨ ∃ ks', x = .pending ks' ∧
      ∀ k ∈ ks', Sound S G (m.store.dueBeside p) v (G.rank p) k)
    (hsum : ∀ id, (x.waiting.map (Continuation.feeds id)).sum + (F'.map (Continuation.feeds id)).sum =
      (ks.map (Continuation.feeds id)).sum + (F.map (Continuation.feeds id)).sum)
    (hfrom : ∀ k, k ∈ F' ∨ k ∈ x.waiting → k ∈ F ∨ k ∈ ks)
    (hto : ∀ k, k ∈ F ∨ k ∈ ks → (k ∈ F' ∨ k ∈ x.waiting) ∨ x = .fulfilled v ∧ k.Targets p) :
    Good S G F' (m.withStore (m.store.setState p x)) := by
  obtain ⟨hw, hhas⟩ := h.has hv
  have hwaiting : (m.store.state p).waiting = ks := by rw [hp]; rfl
  -- A continuation is under way after the step iff it was before, unless it targeted the promise.
  have hout : ∀ k, S.Outstanding F m.store k →
      S.Outstanding F' (m.store.setState p x) k ∨ x = .fulfilled v ∧ k.Targets p := by
    intro k hk
    rw [Setting.outstanding_setState hw hhas]
    rw [Setting.outstanding_iff hw, hwaiting, ← or_assoc] at hk
    rcases hk with hk | hk
    · rcases hto k hk with (hk | hk) | hk
      · exact .inl (.inl hk)
      · exact .inl (.inr (.inl hk))
      · exact .inr hk
    · exact .inl (.inr (.inr hk))
  have hback : ∀ k, S.Outstanding F' (m.store.setState p x) k → S.Outstanding F m.store k := by
    intro k hk
    rw [Setting.outstanding_setState hw hhas, ← or_assoc] at hk
    rw [Setting.outstanding_iff hw, hwaiting, ← or_assoc]
    rcases hk with hk | hk
    · exact .inl (hfrom k hk)
    · exact .inr hk
  refine ⟨h.quiet, h.knows, h.older, ?start, ?watched, h.inert, h.states_setState hv hp hx, ?support,
    fun hk => h.aimed (hback _ hk), fun hk => h.known (hback _ hk), ?gathers,
    fun task ht => (h.tasks task ht).mono (.refl G) fun hf => hf⟩
  case start => simpa [Machine.withStore, Store.setState] using h.start
  case watched =>
    intro q
    rw [h.watched q]
    exact and_congr_right fun _ => Store.has_setState.symm
  case support =>
    intro q w ks' hq hs
    obtain ⟨ks₀, hs₀⟩ := Store.pending_of_isPending
      (Store.isPending_of_setState hp (Store.isPending_of_state hs))
    refine (h.support hq hs₀).mono (.refl G) (fun k out target => ?_) rfl fun found => found
    rcases hout k out with hk | ⟨rfl, hk⟩
    · exact .continuation hk target
    · -- The promise itself is settled now.
      obtain rfl := target.unique hk
      change (m.store.setState q _).state q = _ at hs
      rw [Store.state_setState_self hhas] at hs
      cases hs
  case gathers =>
    intro id r vs hg
    obtain ⟨g, hfound, hgood⟩ := h.gathers hg
    refine ⟨g, hfound, hgood.mono (.refl G) ?_ fun i hk => ?_⟩
    · have htotal := Setting.total_setState hw hhas x (Continuation.feeds id)
      have := hsum id
      rw [hwaiting] at htotal
      change S.total (m.store.setState p x) _ + _ = _
      omega
    · rcases hout _ hk with hk | ⟨-, hk⟩
      · exact hk
      · exact hk.elim

/-! ## Landing, settling and flight -/

/-- A continuation in flight is registered with a pending promise. -/
theorem register (h : Good S G (k :: F) m) (hv : G.value p = some v)
    (hp : m.store.state p = .pending ks) (hk : Sound S G (m.store.dueBeside p) v (G.rank p) k) :
    Good S G F (m.withStore (m.store.setState p (.pending (ks ++ [k])))) := by
  have hsound : ∀ k' ∈ ks, Sound S G (m.store.dueBeside p) v (G.rank p) k' := by
    rcases h.states hv with hs | ⟨ks', hs, hks'⟩
    · rw [hp] at hs
      cases hs
    · rw [hp] at hs
      cases hs
      exact hks'
  refine h.setState hv hp (.inr ⟨_, rfl, fun k' hk' => ?_⟩) (fun id => ?_) (fun k' hk' => ?_)
    fun k' hk' => .inl ?_
  · rcases List.mem_append.1 hk' with hk' | hk'
    · exact hsound k' hk'
    · rw [List.mem_singleton.1 hk']
      exact hk
  · simp only [PromiseState.waiting, List.map_append, List.sum_append, List.map_cons, List.map_nil,
      List.sum_cons, List.sum_nil]
    omega
  · simp only [PromiseState.waiting, List.mem_append, List.mem_cons] at hk' ⊢
    tauto
  · simp only [PromiseState.waiting, List.mem_append, List.mem_cons] at hk' ⊢
    tauto

/-- A pending promise is settled with its value, and what waited for it is in flight. -/
theorem settle (h : Good S G (.adopt p :: F) m) (hv : G.value p = some v)
    (hp : m.store.state p = .pending ks) :
    Good S G (ks ++ F) (m.withStore (m.store.setState p (.fulfilled v))) := by
  refine h.setState hv hp (.inl rfl) (fun id => ?_) (fun k' hk' => ?_) fun k' hk' => ?_
  · simp only [PromiseState.waiting, List.map_append, List.sum_append, List.map_cons, List.map_nil,
      List.sum_cons, List.sum_nil, Continuation.feeds]
    omega
  · simp only [PromiseState.waiting, List.mem_append, List.mem_cons, List.not_mem_nil] at hk' ⊢
    tauto
  · simp only [PromiseState.waiting, List.mem_append, List.mem_cons, List.not_mem_nil] at hk' ⊢
    rcases hk' with (rfl | hk') | hk'
    · exact .inr ⟨trivial, rfl⟩
    · exact .inl (.inl (.inr hk'))
    · exact .inl (.inl (.inl hk'))

/-- Other continuations in flight, so long as no gather and no pending promise loses one. -/
theorem reflight {F' : List (Continuation Handler)} (h : Good S G F m)
    (hsum : ∀ id, (F'.map (Continuation.feeds id)).sum = (F.map (Continuation.feeds id)).sum)
    (hfrom : ∀ k ∈ F', k ∈ F ∨ ∃ p, k.Targets p ∧ ∃ k' ∈ F, k'.Targets p)
    (hto : ∀ k ∈ F, k ∈ F' ∨ ∃ p, k.Targets p ∧
      (m.store.isPending p = false ∨ ∃ k' ∈ F', k'.Targets p)) : Good S G F' m := by
  refine ⟨h.quiet, h.knows, h.older, h.start, h.watched, h.inert, h.states, ?support, ?aimed, ?known,
    ?gathers, h.tasks⟩
  case support =>
    intro q w ks' hq hs
    refine (h.support hq hs).mono (.refl G) (fun k out target => ?_) rfl fun found => found
    rcases out with hk | hk
    · rcases hto _ hk with hk | ⟨p, hp, hlost⟩
      · exact .continuation (.inl hk) target
      · obtain rfl := target.unique hp
        rcases hlost with hlost | ⟨k', hk', hp'⟩
        · rw [Store.isPending_of_state hs] at hlost
          cases hlost
        · exact .continuation (.inl hk') hp'
    · exact .continuation (.inr hk) target
  case aimed =>
    rintro k q (hk | hk) hq
    · rcases hfrom k hk with hk | ⟨p, hp, k', hk', hp'⟩
      · exact h.aimed (.inl hk) hq
      · obtain rfl := hq.unique hp
        exact h.aimed (.inl hk') hp'
    · exact h.aimed (.inr hk) hq
  case known =>
    rintro id i (hk | hk)
    · rcases hfrom _ hk with hk | ⟨p, hp, -⟩
      · exact h.known (.inl hk)
      · exact hp.elim
    · exact h.known (.inr hk)
  case gathers =>
    intro id r vs hg
    obtain ⟨g, hfound, hgood⟩ := h.gathers hg
    refine ⟨g, hfound, hgood.mono (.refl G) (by rw [hsum id]) fun i hk => ?_⟩
    rcases hk with hk | hk
    · rcases hto _ hk with hk | ⟨p, hp, -⟩
      · exact .inl hk
      · exact hp.elim
    · exact .inr hk

theorem perm {F' : List (Continuation Handler)} (h : Good S G F m) (hF : F.Perm F') :
    Good S G F' m :=
  h.reflight (fun _ => ((hF.map _).sum_eq).symm) (fun _ hk => .inl (hF.mem_iff.2 hk))
    fun _ hk => .inl (hF.mem_iff.1 hk)

/-- Nothing needs to be in flight for a promise that is settled. -/
theorem drop (h : Good S G (k :: F) m) (hk : k.Targets p) (hp : m.store.isPending p = false) :
    Good S G F m := by
  refine h.reflight (fun id => (Continuation.sum_feeds_of_targets hk F id).symm)
    (fun _ hk' => .inl (.tail _ hk')) fun k' hk' => ?_
  rcases List.mem_cons.1 hk' with rfl | hk'
  · exact .inr ⟨p, hk, .inl hp⟩
  · exact .inl hk'

/-- Another continuation for the same promise takes the place of one in flight. -/
theorem retarget {k' : Continuation Handler} (h : Good S G (k :: F) m) (hk : k.Targets p)
    (hk' : k'.Targets p) : Good S G (k' :: F) m := by
  refine h.reflight (fun id => ?_) (fun k'' hmem => ?_) fun k'' hmem => ?_
  · rw [Continuation.sum_feeds_of_targets hk, Continuation.sum_feeds_of_targets hk']
  · rcases List.mem_cons.1 hmem with rfl | hmem
    · exact .inr ⟨p, hk', k, .head _, hk⟩
    · exact .inl (.tail _ hmem)
  · rcases List.mem_cons.1 hmem with rfl | hmem
    · exact .inr ⟨p, hk, .inr ⟨k', .head _, hk'⟩⟩
    · exact .inl (.tail _ hmem)

end Good

/-! ## New promises -/

namespace Good

variable {S : Setting} {G : Plan} {F : List (Continuation Handler)} {m : Machine} {p : PromiseId}
  {v : Value} {k : Continuation Handler} {ρ w : Nat}

theorem value_fresh (h : Good S G F m) : G.value m.store.fresh.1 = none := by
  cases hv : G.value m.store.fresh.1 with
  | none => rfl
  | some v => exact absurd (h.has hv).2 m.store.not_has_fresh

theorem watches_fresh (h : Good S G F m) : S.watches m.store.fresh.1 = true :=
  S.watches_later _ h.start

/-- A new promise with a continuation in flight that is to settle it. -/
theorem launch (h : Good S G F m) (hv : v.inert S.allows = true)
    (hk : k.Targets m.store.fresh.1) :
    Good S (G.track m.store.fresh.1 v ρ w) (k :: F) (m.withStore m.store.fresh.2) := by
  have hnew := h.value_fresh
  have hle : G.Le (G.track m.store.fresh.1 v ρ w) := Plan.le_track hnew
  have hstate : ∀ q, m.store.fresh.2.state q = m.store.state q := m.store.state_fresh
  have hdue : ∀ q q', m.store.fresh.2.dueBeside q q' = m.store.dueBeside q q' := by
    intro q q'
    simp only [Store.dueBeside, Store.isPending, hstate]
  have hold : ∀ {q u}, q ≠ m.store.fresh.1 →
      (G.track m.store.fresh.1 v ρ w).value q = some u → G.value q = some u := by
    intro q u hq hu
    rwa [Plan.value_track_ne hq] at hu
  have hout : ∀ k', S.Outstanding F m.store k' →
      S.Outstanding (k :: F) m.store.fresh.2 k' := by
    intro k' hk'
    rw [Setting.outstanding_cons, Setting.outstanding_congr hstate]
    exact .inr hk'
  refine ⟨h.quiet, h.knows, h.older, ?start, ?watched, ?inert, ?states, ?support, ?aimed, ?known,
    ?gathers, fun task ht => (h.tasks task ht).mono hle fun hf => hf⟩
  case start => exact Nat.le_trans h.start (by simp [Machine.withStore, Store.fresh])
  case watched =>
    intro q
    by_cases hq : q = m.store.fresh.1
    · subst hq
      exact ⟨fun _ => ⟨h.watches_fresh, Store.has_fresh.2 (.inr rfl)⟩,
        fun _ => ⟨v, Plan.value_track_self⟩⟩
    · rw [Plan.value_track_ne hq, h.watched q]
      refine and_congr_right fun _ => ?_
      change _ ↔ m.store.fresh.2.Has q
      rw [Store.has_fresh]
      exact ⟨.inl, fun hh => hh.resolve_right hq⟩
  case inert =>
    intro q u hu
    by_cases hq : q = m.store.fresh.1
    · subst hq
      rw [Plan.value_track_self] at hu
      cases hu
      exact hv
    · exact h.inert (hold hq hu)
  case states =>
    intro q u hu
    change m.store.fresh.2.state q = _ ∨ ∃ ks, m.store.fresh.2.state q = _ ∧ _
    rw [hstate]
    by_cases hq : q = m.store.fresh.1
    · subst hq
      exact .inr ⟨[], Store.state_of_not_has m.store.not_has_fresh, fun _ h => by cases h⟩
    · rcases h.states (hold hq hu) with hs | ⟨ks, hs, hks⟩
      · exact .inl hs
      · refine .inr ⟨ks, hs, fun k' hk' => ?_⟩
        rw [hle.rank (hold hq hu)]
        exact (hks k' hk').mono hle fun q' hq' => by rwa [← hdue]
  case support =>
    intro q u ks hu hs
    by_cases hq : q = m.store.fresh.1
    · subst hq
      exact .continuation (.inl (.head _)) hk
    · change m.store.fresh.2.state q = _ at hs
      rw [hstate] at hs
      exact (h.support (hold hq hu) hs).mono hle
        (fun k' out target => .continuation (hout k' out) target) rfl fun found => found
  case aimed =>
    intro k' q hk' hq
    change S.Outstanding (k :: F) m.store.fresh.2 _ at hk'
    rw [Setting.outstanding_cons, Setting.outstanding_congr hstate] at hk'
    rcases hk' with rfl | hk'
    · obtain rfl := hq.unique hk
      exact ⟨v, Plan.value_track_self⟩
    · obtain ⟨u, hu⟩ := h.aimed hk' hq
      exact ⟨u, hle.value hu⟩
  case known =>
    intro id i hk'
    change S.Outstanding (k :: F) m.store.fresh.2 _ at hk'
    rw [Setting.outstanding_cons, Setting.outstanding_congr hstate] at hk'
    rcases hk' with rfl | hk'
    · exact hk.elim
    · exact h.known hk'
  case gathers =>
    intro id r vs hg
    obtain ⟨g, hfound, hgood⟩ := h.gathers hg
    refine ⟨g, hfound, hgood.mono hle ?_ fun i hk' => hout _ hk'⟩
    rw [Continuation.sum_feeds_of_targets hk]
    exact congrArg (· + _) (Setting.total_fresh _ _)

/-! ## Gathers -/

theorem gather_fresh (h : Good S G F m) : G.gather ⟨m.store.gathers.size⟩ = none := by
  cases hg : G.gather ⟨m.store.gathers.size⟩ with
  | none => rfl
  | some x =>
    obtain ⟨g, hfound, -⟩ := h.gathers hg
    rw [Array.getElem?_eq_none (Nat.le_refl _)] at hfound
    cases hfound

/-- No continuation that is under way brings an operand of a gather that is not there. -/
theorem feeds_fresh (h : Good S G F m) {k : Continuation Handler} (hk : S.Outstanding F m.store k) :
    k.feeds ⟨m.store.gathers.size⟩ = 0 := by
  cases k with
  | gather id i =>
    obtain ⟨x, hx⟩ := h.known hk
    rw [Continuation.feeds, if_neg]
    rintro rfl
    rw [h.gather_fresh] at hx
    cases hx
  | _ => rfl

theorem sum_feeds_watchers (id id' : GatherId) (places : List (Nat × PromiseId)) :
    ((places.map fun x => Continuation.gather id x.1).map (Continuation.feeds id')).sum =
      if id = id' then places.length else 0 := by
  induction places with
  | nil => simp
  | cons i rest ih =>
    rw [List.map_cons, List.map_cons, List.sum_cons, ih, Continuation.feeds, List.length_cons]
    split <;> omega

/-- Adding a gather leaves those that are there. -/
theorem gathers_addGather {s : Store Handler} {id : GatherId} {g g' : Gather}
    (h : s.gathers[id.index]? = some g) : (s.addGather g').2.gathers[id.index]? = some g := by
  obtain ⟨hlt, -⟩ := Array.getElem?_eq_some_iff.1 h
  rw [Store.addGather, Array.getElem?_push, if_neg (Nat.ne_of_lt hlt)]
  exact h

/-- A new gather misses the operands for which a continuation is in flight, and no others. -/
theorem gatherGood_new {r : PromiseId} {xs vs : List Value} {places : List (Nat × PromiseId)}
    (h : Good S G (.adopt r :: F) m) (hr : G.value r = some (.tuple vs))
    (hlength : xs.length = vs.length) (hplaces : places ≠ [])
    (hxs : ∀ i v, vs[i]? = some v → xs[i]? = some v ∨ ∃ q, (i, q) ∈ places) :
    GatherGood S G ((places.map fun x => .gather ⟨m.store.gathers.size⟩ x.1) ++ F) m.store
      ⟨m.store.gathers.size⟩ r vs ⟨xs, places.length, false, r⟩ := by
  refine ⟨rfl, hr, hlength, ?remaining, ?done, fun i u hi => ?places⟩
  case remaining =>
    have htotal : S.total m.store (Continuation.feeds ⟨m.store.gathers.size⟩) = 0 :=
      Setting.total_eq_zero fun q ks hq hs k hk => h.feeds_fresh (.inr ⟨q, ks, hq, hs, hk⟩)
    have hflight : (F.map (Continuation.feeds ⟨m.store.gathers.size⟩)).sum = 0 := by
      refine List.sum_eq_zero fun n hn => ?_
      obtain ⟨k, hk, rfl⟩ := List.mem_map.1 hn
      exact h.feeds_fresh (.inl (.tail _ hk))
    rw [List.map_append, List.sum_append, sum_feeds_watchers, if_pos rfl, hflight, htotal]
    exact (Nat.zero_add _).symm
  case done => exact ⟨nofun, fun hd => absurd (List.length_eq_zero_iff.1 hd) hplaces⟩
  case places =>
    rcases hxs i u hi with hx | ⟨q, hx⟩
    · exact .inl hx
    · exact .inr (.inl (List.mem_append_left _ (List.mem_map.2 ⟨(i, q), hx, rfl⟩)))

/-- A new gather takes over a promise, with a continuation in flight for each operand it misses. -/
theorem gathering {r : PromiseId} {xs vs : List Value} {places : List (Nat × PromiseId)}
    (h : Good S G (.adopt r :: F) m) (hr : G.value r = some (.tuple vs))
    (hlength : xs.length = vs.length) (hplaces : places ≠ [])
    (hxs : ∀ i v, vs[i]? = some v → xs[i]? = some v ∨ ∃ q, (i, q) ∈ places) :
    Good S (G.gathering ⟨m.store.gathers.size⟩ r vs)
      ((places.map fun x => .gather ⟨m.store.gathers.size⟩ x.1) ++ F)
      (m.withStore (m.store.addGather ⟨xs, places.length, false, r⟩).2) := by
  have hle : G.Le (G.gathering ⟨m.store.gathers.size⟩ r vs) := Plan.le_gathering h.gather_fresh
  have hfound : (m.store.addGather ⟨xs, places.length, false, r⟩).2.gathers[m.store.gathers.size]? =
      some ⟨xs, places.length, false, r⟩ := Array.getElem?_push_size
  have hout : ∀ k, S.Outstanding F m.store k → S.Outstanding
      ((places.map fun x => .gather ⟨m.store.gathers.size⟩ x.1) ++ F)
      (m.store.addGather ⟨xs, places.length, false, r⟩).2 k := by
    rintro k (hk | hk)
    · exact .inl (List.mem_append_right _ hk)
    · exact .inr hk
  refine ⟨h.quiet, h.knows, h.older, h.start, h.watched, h.inert, ?states, ?support, ?aimed, ?known,
    ?gathers, fun task ht => (h.tasks task ht).mono hle fun hf => hf⟩
  case states =>
    intro q u hu
    rcases h.states hu with hs | ⟨ks, hs, hks⟩
    · exact .inl hs
    · exact .inr ⟨ks, hs, fun k hk => (hks k hk).mono hle fun _ hq => hq⟩
  case support =>
    intro q u ks hu hs
    by_cases hq : q = r
    · subst hq
      exact .gather Plan.gather_gathering_self hfound rfl
    · refine (h.support hu hs).mono hle (fun k out target => ?_) rfl gathers_addGather
      rcases Setting.outstanding_cons.1 out with rfl | out
      · exact absurd target.symm hq
      · exact .continuation (hout _ out) target
  case aimed =>
    rintro k q (hk | hk) hq
    · rcases List.mem_append.1 hk with hk | hk
      · obtain ⟨i', -, rfl⟩ := List.mem_map.1 hk
        exact hq.elim
      · exact h.aimed (.inl (.tail _ hk)) hq
    · exact h.aimed (.inr hk) hq
  case known =>
    rintro id i (hk | hk)
    · rcases List.mem_append.1 hk with hk | hk
      · obtain ⟨i', -, hi'⟩ := List.mem_map.1 hk
        cases hi'
        exact ⟨_, Plan.gather_gathering_self⟩
      · obtain ⟨x, hx⟩ := h.known (.inl (.tail _ hk))
        exact ⟨x, hle.gather hx⟩
    · obtain ⟨x, hx⟩ := h.known (.inr hk)
      exact ⟨x, hle.gather hx⟩
  case gathers =>
    intro id r' vs' hg
    by_cases hid : id = ⟨m.store.gathers.size⟩
    · subst hid
      rw [Plan.gather_gathering_self] at hg
      cases hg
      exact ⟨_, hfound, (h.gatherGood_new hr hlength hplaces hxs).mono hle rfl fun _ hk => hk⟩
    · rw [Plan.gather_gathering_ne hid] at hg
      obtain ⟨g, hg', hgood⟩ := h.gathers hg
      refine ⟨g, gathers_addGather hg', hgood.mono hle ?_ fun i hk => ?_⟩
      · rw [List.map_append, List.sum_append, sum_feeds_watchers, if_neg (Ne.symm hid), Nat.zero_add,
          Continuation.sum_feeds_of_targets (show (Continuation.adopt r).Targets r from rfl)]
        rfl
      · rcases Setting.outstanding_cons.1 hk with hk | hk
        · cases hk
        · exact hout _ hk

/-- A gather misses as many operands as it has continuations under way, so one that is under way
counts. -/
theorem feeds_pos {id : GatherId} {i : Nat} (hk : S.Outstanding F m.store (.gather id i)) :
    0 < S.total m.store (Continuation.feeds id) + (F.map (Continuation.feeds id)).sum := by
  have hone : Continuation.feeds id (.gather id i) = 1 := if_pos rfl
  rcases hk with hk | ⟨p, ks, hp, hs, hk⟩
  · have hF : 1 ≤ (F.map (Continuation.feeds id)).sum :=
      List.le_sum_of_mem (List.mem_map.2 ⟨_, hk, hone⟩)
    omega
  · have hhas : m.store.Has p := by
      by_contra hn
      rw [Store.state_of_not_has hn] at hs
      cases hs
      cases hk
    have hks : 1 ≤ (ks.map (Continuation.feeds id)).sum :=
      List.le_sum_of_mem (List.mem_map.2 ⟨_, hk, hone⟩)
    have htotal := Setting.total_setState hp hhas (.fulfilled .unit) (Continuation.feeds id)
    rw [hs] at htotal
    simp only [PromiseState.waiting, List.map_nil, List.sum_nil] at htotal
    omega

/-- A gather is brought up to date when one of its operands arrives. Once it is done, its result is in
flight. -/
theorem regather {F' : List (Continuation Handler)} {id : GatherId} {r : PromiseId} {vs : List Value}
    {g g' : Gather} (h : Good S G F m) (hg : G.gather id = some (r, vs))
    (hfound : m.store.gathers[id.index]? = some g) (hgood : GatherGood S G F' m.store id r vs g')
    (hsum : ∀ id', id' ≠ id →
      (F'.map (Continuation.feeds id')).sum = (F.map (Continuation.feeds id')).sum)
    (hfrom : ∀ k ∈ F', k = .adopt r ∨ k ∈ F)
    (hto : ∀ k ∈ F, k ∈ F' ∨ ∃ i, k = .gather id i) (hdone : g'.done = true → .adopt r ∈ F') :
    Good S G F' (m.withStore
      { m.store with gathers := m.store.gathers.setIfInBounds id.index g' }) := by
  have hself : (m.store.gathers.setIfInBounds id.index g')[id.index]? = some g' := by
    obtain ⟨hlt, -⟩ := Array.getElem?_eq_some_iff.1 hfound
    rw [Array.getElem?_setIfInBounds, if_pos rfl, if_pos hlt]
  have hother : ∀ {id' : GatherId}, id' ≠ id →
      (m.store.gathers.setIfInBounds id.index g')[id'.index]? = m.store.gathers[id'.index]? := by
    rintro ⟨j⟩ hne
    rw [Array.getElem?_setIfInBounds, if_neg]
    rintro rfl
    exact hne rfl
  refine ⟨h.quiet, h.knows, h.older, h.start, h.watched, h.inert, h.states, ?support, ?aimed, ?known,
    ?gathers, fun task ht => (h.tasks task ht).mono (.refl G) fun hf => hf⟩
  case support =>
    intro q u ks hu hs
    cases h.support hu hs with
    | continuation out target =>
      rcases out with hk | hk
      · rcases hto _ hk with hk | ⟨i, rfl⟩
        · exact .continuation (.inl hk) target
        · exact target.elim
      · exact .continuation (.inr hk) target
    | task queued target => exact .task queued target
    | @gather id' _ _ gather found undone =>
      by_cases hid : id' = id
      · subst hid
        rw [hg] at gather
        cases gather
        cases hd : g'.done with
        | true => exact .continuation (.inl (hdone hd)) rfl
        | false => exact .gather hg hself hd
      · exact .gather gather ((hother hid).trans found) undone
  case aimed =>
    rintro k q (hk | hk) hq
    · rcases hfrom k hk with rfl | hk
      · obtain rfl : r = q := hq
        exact ⟨_, hgood.value⟩
      · exact h.aimed (.inl hk) hq
    · exact h.aimed (.inr hk) hq
  case known =>
    rintro id' i (hk | hk)
    · rcases hfrom _ hk with hk | hk
      · cases hk
      · exact h.known (.inl hk)
    · exact h.known (.inr hk)
  case gathers =>
    intro id' r' vs' hg'
    by_cases hid : id' = id
    · subst hid
      rw [hg] at hg'
      cases hg'
      exact ⟨g', hself, hgood.mono (.refl G) rfl fun _ hk => hk⟩
    · obtain ⟨g₀, hfound₀, hgood₀⟩ := h.gathers hg'
      refine ⟨g₀, (hother hid).trans hfound₀,
        hgood₀.mono (.refl G) (by rw [hsum id' hid]; rfl) fun i hk => ?_⟩
      rcases hk with hk | hk
      · rcases hto _ hk with hk | ⟨j, hj⟩
        · exact .inl hk
        · cases hj
          exact absurd rfl hid
      · exact .inr hk

end Good

namespace GatherGood

variable {S : Setting} {G : Plan} {F : List (Continuation Handler)} {m : Machine} {id : GatherId}
  {i : Nat} {r : PromiseId} {vs : List Value} {v : Value} {g : Gather}

/-- A gather that misses an operand has not completed. -/
theorem undone (h : GatherGood S G (.gather id i :: F) m.store id r vs g) : g.done = false := by
  have hremaining := h.remaining
  rw [List.map_cons, List.sum_cons, Continuation.feeds, if_pos rfl] at hremaining
  cases hd : g.done with
  | false => rfl
  | true =>
    have := h.done.1 hd
    omega

/-- An operand that arrives fills its place, and nothing is in flight for it any more. -/
theorem fill (h : GatherGood S G (.gather id i :: F) m.store id r vs g) (hv : vs[i]? = some v) :
    GatherGood S G F m.store id r vs
      ⟨g.values.set i v, g.remaining - 1, decide (g.remaining - 1 = 0), g.result⟩ := by
  refine ⟨h.result, h.value, ?length, ?remaining, decide_eq_true_iff, fun j u hj => ?places⟩
  case length => rw [List.length_set, h.length]
  case remaining =>
    have hremaining := h.remaining
    rw [List.map_cons, List.sum_cons, Continuation.feeds, if_pos rfl] at hremaining
    change g.remaining - 1 = _
    omega
  case places =>
    by_cases hji : j = i
    · subst hji
      obtain rfl : v = u := Option.some.inj (hv.symm.trans hj)
      have hlt : j < g.values.length := by
        rw [h.length]
        exact (List.getElem?_eq_some_iff.1 hj).1
      exact .inl (List.getElem?_set_self hlt)
    · rw [List.getElem?_set_ne (Ne.symm hji)]
      rcases h.places j u hj with hfilled | hk
      · exact .inl hfilled
      · rcases Setting.outstanding_cons.1 hk with hk | hk
        · cases hk
          exact absurd rfl hji
        · exact .inr hk

/-- Nothing is under way for a gather that misses nothing, so all its places are filled. -/
theorem values_eq (h : GatherGood S G F m.store id r vs g) (hzero : g.remaining = 0) :
    g.values = vs := by
  have hremaining := h.remaining
  refine List.ext_getElem? fun j => ?_
  cases hj : vs[j]? with
  | none =>
    have hlength := h.length
    rw [List.getElem?_eq_none_iff] at hj ⊢
    omega
  | some u =>
    rcases h.places j u hj with hfilled | hk
    · exact hfilled
    · have := Good.feeds_pos hk
      omega

end GatherGood

namespace Good

variable {S : Setting} {G : Plan} {F : List (Continuation Handler)} {m : Machine} {v : Value}

/-- An operand that arrives is put in its place. The last one completes the gather, and its result is
then in flight. -/
theorem record {id : GatherId} {i : Nat} {r : PromiseId} {vs : List Value}
    (h : Good S G (.gather id i :: F) m) (hg : G.gather id = some (r, vs)) (hv : vs[i]? = some v) :
    (∃ s, m.store.record id i (.ok v) = (none, s) ∧ Good S G F (m.withStore s)) ∨
    ∃ s, m.store.record id i (.ok v) = (some (r, .ok (.tuple vs)), s) ∧
      Good S G (.adopt r :: F) (m.withStore s) := by
  obtain ⟨g, hfound, hgood⟩ := h.gathers hg
  have hundone := hgood.undone
  have hfill := hgood.fill hv
  have hsum : ∀ id', id' ≠ id → (F.map (Continuation.feeds id')).sum =
      ((Continuation.gather id i :: F).map (Continuation.feeds id')).sum := by
    intro id' hid
    rw [List.map_cons, List.sum_cons, Continuation.feeds, if_neg (Ne.symm hid), Nat.zero_add]
  have hto : ∀ k ∈ Continuation.gather id i :: F, k ∈ F ∨ ∃ j, k = .gather id j := by
    intro k hk
    rcases List.mem_cons.1 hk with rfl | hk
    · exact .inr ⟨i, rfl⟩
    · exact .inl hk
  by_cases hzero : g.remaining - 1 = 0
  · have hall : g.values.set i v = vs := hfill.values_eq hzero
    have hadopt := Continuation.sum_feeds_of_targets (k := .adopt r) (p := r) rfl F
    have hnew : GatherGood S G (.adopt r :: F) m.store id r vs _ :=
      hfill.mono (.refl G) (by rw [hadopt]) fun j hk => Setting.outstanding_cons.2 (.inr hk)
    refine .inr ⟨_, ?_, h.regather hg hfound hnew (fun id' hid => (hadopt id').trans (hsum id' hid))
      (fun k hk => ?_) (fun k hk => ?_) fun _ => .head _⟩
    · simp [Store.record, hfound, Gather.record, hundone, hzero, hgood.result, hall]
    · rcases List.mem_cons.1 hk with rfl | hk
      · exact .inl rfl
      · exact .inr (.tail _ hk)
    · rcases hto k hk with hk | hk
      · exact .inl (.tail _ hk)
      · exact .inr hk
  · refine .inl ⟨_, ?_, h.regather hg hfound hfill hsum (fun _ hk => .inr (.tail _ hk)) hto
      fun hd => absurd (of_decide_eq_true hd) hzero⟩
    simp [Store.record, hfound, Gather.record, hundone, hzero]

end Good

end Deferral
