import Deferral.Proofs.Transparency.Upkeep

/-!
# What each step costs

`Leads` says that a run has got from one good machine to another, at some cost: the load of the second
is at most the load of the first and the cost. Loads count what waits, what is queued and what is in
flight alike, so that a continuation which is registered, taken up again or put into the queue costs
nothing but what it gains in weight. Steps are put together with `Leads.trans`.

When nothing is in flight and the queue is empty, nothing is pending any more
(`Good.settled_of_idle`): the promise of least rank would have nothing to wait for.
-/

set_option autoImplicit false

namespace Deferral

theorem Plan.sum_load_gather (G : Plan) (id : GatherId) (places : List (Nat × PromiseId)) :
    ((places.map fun x => Continuation.gather id x.1).map G.load).sum = places.length := by
  induction places with
  | nil => rfl
  | cons i rest ih =>
    rw [List.map_cons, List.map_cons, List.sum_cons, ih, Plan.load, List.length_cons]
    omega

namespace Setting

variable {S : Setting} {G G' : Plan} {F F' : List (Continuation Handler)} {m : Machine}
  {k : Continuation Handler}

theorem load_cons : S.load G (k :: F) m = G.load k + S.load G F m := by
  simp only [load, List.map_cons, List.sum_cons]
  omega

theorem load_perm (h : F.Perm F') : S.load G F m = S.load G F' m := by
  simp only [load, (h.map G.load).sum_eq]

/-- Extending the plan does not change what is already under way. -/
theorem load_mono (h : Good S G F m) (hG : G.Le G') : S.load G' F m = S.load G F m := by
  have hk : ∀ k, S.Outstanding F m.store k → G'.load k = G.load k := by
    intro k hk
    cases k with
    | derive t handler =>
      obtain ⟨v, hv⟩ := h.aimed hk rfl
      exact hG.weight hv
    | _ => rfl
  have htotal : S.total m.store G'.load = S.total m.store G.load :=
    total_mono fun p ks hp hs k hmem => hk k (.inr ⟨p, ks, hp, hs, hmem⟩)
  have hflight : F.map G'.load = F.map G.load := List.map_congr_left fun k hmem => hk k (.inl hmem)
  have htasks : ((S.tasks m).map fun t => G'.weight t.target) =
      (S.tasks m).map fun t => G.weight t.target := by
    refine List.map_congr_left fun t ht => ?_
    obtain ⟨-, -, value, -⟩ := h.tasks t ht
    exact hG.weight value
  rw [load, load, htotal, hflight, htasks]

end Setting

/-! ## Runs -/

/-- A run has got from one good machine to another, and has bound some names on the way. -/
structure Leads (S : Setting) (cost saving : Nat) (more : List Binding) (G : Plan)
    (F : List (Continuation Handler)) (m : Machine) (G' : Plan) (F' : List (Continuation Handler))
    (m' : Machine) : Prop where
  advance : Advance S G m G' m'
  good : Good S G' F' m'
  load : S.load G' F' m' + saving ≤ S.load G F m + cost
  env : m'.rest.env = m.rest.env.grow more

namespace Leads

variable {S : Setting} {G G' G'' : Plan} {F F' F'' : List (Continuation Handler)}
  {m m' m'' : Machine} {a b a' b' : Nat} {more more' : List Binding}

theorem refl (h : Good S G F m) : Leads S 0 0 [] G F m G F m :=
  ⟨.refl G m, h, Nat.le_refl _, rfl⟩

theorem trans (h : Leads S a b more G F m G' F' m') (h' : Leads S a' b' more' G' F' m' G'' F'' m'') :
    Leads S (a + a') (b + b') (more' ++ more) G F m G'' F'' m'' := by
  refine ⟨h.advance.trans h'.advance, h'.good, ?_, ?_⟩
  · have := h.load
    have := h'.load
    omega
  · rw [h'.env, h.env, Environment.grow_grow]

theorem le (h : Leads S a b more G F m G' F' m') (hab : a + b' ≤ a' + b) :
    Leads S a' b' more G F m G' F' m' := by
  refine ⟨h.advance, h.good, ?_, h.env⟩
  have := h.load
  omega

/-- A run in an environment of its own. -/
theorem back {env : Environment} (h : Leads S a b more G F (m.withEnv env) G' F' m') :
    Leads S a b [] G F m G' F' (m'.withEnv m.rest.env) := by
  refine ⟨⟨h.advance.plan, h.advance.settled, h.advance.functions⟩, h.good.withEnv _, h.load, rfl⟩

end Leads

namespace Good

variable {S : Setting} {G : Plan} {F : List (Continuation Handler)} {m : Machine} {p : PromiseId}
  {v : Value} {k : Continuation Handler} {ks : List (Continuation Handler)}

/-- Changing the state of a promise that is pending settles nothing again. -/
theorem advance_setState (hp : m.store.state p = .pending ks) (x : PromiseState Handler) :
    Advance S G m G (m.withStore (m.store.setState p x)) :=
  ⟨.refl G, fun hq => Store.isPending_of_setState hp hq, fun hf => hf⟩

theorem leads_register (h : Good S G (k :: F) m) (hv : G.value p = some v)
    (hp : m.store.state p = .pending ks) (hk : Sound S G (m.store.dueBeside p) v (G.rank p) k) :
    Leads S 0 0 [] G (k :: F) m G F (m.withStore (m.store.setState p (.pending (ks ++ [k])))) := by
  refine ⟨advance_setState hp _, h.register hv hp hk, ?_, rfl⟩
  obtain ⟨hw, hhas⟩ := h.has hv
  have htotal := Setting.total_setState hw hhas (.pending (ks ++ [k])) G.load
  rw [hp] at htotal
  simp only [PromiseState.waiting, List.map_append, List.sum_append, List.map_cons, List.map_nil,
    List.sum_cons, List.sum_nil] at htotal
  rw [Setting.load_cons, Setting.load, Setting.load]
  change S.total (m.store.setState p _) _ + ((S.tasks m).map _).sum + _ + 0 ≤ _
  omega

theorem leads_settle (h : Good S G (.adopt p :: F) m) (hv : G.value p = some v)
    (hp : m.store.state p = .pending ks) :
    Leads S 0 1 [] G (.adopt p :: F) m G (ks ++ F)
      (m.withStore (m.store.setState p (.fulfilled v))) := by
  refine ⟨advance_setState hp _, h.settle hv hp, ?_, rfl⟩
  obtain ⟨hw, hhas⟩ := h.has hv
  have htotal := Setting.total_setState hw hhas (.fulfilled v) G.load
  rw [hp] at htotal
  simp only [PromiseState.waiting, List.map_nil, List.sum_nil] at htotal
  rw [Setting.load_cons, Setting.load, Setting.load, List.map_append, List.sum_append, Plan.load]
  change S.total (m.store.setState p _) _ + ((S.tasks m).map _).sum + _ + 1 ≤ _
  omega

theorem leads_drop (h : Good S G (k :: F) m) (hk : k.Targets p) (hp : m.store.isPending p = false) :
    Leads S 0 (G.load k) [] G (k :: F) m G F m := by
  refine ⟨.refl G m, h.drop hk hp, ?_, rfl⟩
  rw [Setting.load_cons]
  omega

theorem leads_retarget {k' : Continuation Handler} (h : Good S G (k :: F) m) (hk : k.Targets p)
    (hk' : k'.Targets p) : Leads S (G.load k') (G.load k) [] G (k :: F) m G (k' :: F) m := by
  refine ⟨.refl G m, h.retarget hk hk', ?_, rfl⟩
  rw [Setting.load_cons, Setting.load_cons]
  omega

theorem leads_launch {ρ w : Nat} (h : Good S G F m) (hv : v.inert S.allows = true)
    (hk : k.Targets m.store.fresh.1) :
    Leads S ((G.track m.store.fresh.1 v ρ w).load k) 0 [] G F m (G.track m.store.fresh.1 v ρ w)
      (k :: F) (m.withStore m.store.fresh.2) := by
  have hle : G.Le (G.track m.store.fresh.1 v ρ w) := Plan.le_track h.value_fresh
  refine ⟨⟨hle, fun {q} hq => ?_, fun hf => hf⟩, h.launch hv hk, ?_, rfl⟩
  · change m.store.fresh.2.isPending q = true at hq
    rwa [Store.isPending, Store.state_fresh] at hq
  · have hload := Setting.load_mono h hle
    rw [Setting.load_cons, ← hload, Setting.load, Setting.load]
    change _ + (S.total m.store.fresh.2 _ + ((S.tasks m).map _).sum + _) + 0 ≤ _
    rw [Setting.total_fresh]
    omega

theorem leads_gathering {r : PromiseId} {xs vs : List Value} {places : List (Nat × PromiseId)}
    (h : Good S G (.adopt r :: F) m) (hr : G.value r = some (.tuple vs))
    (hlength : xs.length = vs.length) (hplaces : places ≠ [])
    (hxs : ∀ i v, vs[i]? = some v → xs[i]? = some v ∨ ∃ q, (i, q) ∈ places) :
    Leads S places.length 1 [] G (.adopt r :: F) m (G.gathering ⟨m.store.gathers.size⟩ r vs)
      ((places.map fun x => .gather ⟨m.store.gathers.size⟩ x.1) ++ F)
      (m.withStore (m.store.addGather ⟨xs, places.length, false, r⟩).2) := by
  have hle : G.Le (G.gathering ⟨m.store.gathers.size⟩ r vs) := Plan.le_gathering h.gather_fresh
  refine ⟨⟨hle, fun hq => hq, fun hf => hf⟩, h.gathering hr hlength hplaces hxs, ?_, rfl⟩
  have hload := Setting.load_mono h hle
  rw [← hload, Setting.load_cons, Setting.load, Setting.load, List.map_append, List.sum_append,
    Plan.sum_load_gather, Plan.load]
  change S.total m.store _ + ((S.tasks m).map _).sum + _ + 1 ≤ _
  omega

theorem leads_record {id : GatherId} {i : Nat} {r : PromiseId} {vs : List Value}
    (h : Good S G (.gather id i :: F) m) (hg : G.gather id = some (r, vs)) (hv : vs[i]? = some v) :
    (∃ s, m.store.record id i (.ok v) = (none, s) ∧
      Leads S 0 1 [] G (.gather id i :: F) m G F (m.withStore s)) ∨
    ∃ s, m.store.record id i (.ok v) = (some (r, .ok (.tuple vs)), s) ∧
      Leads S 0 0 [] G (.gather id i :: F) m G (.adopt r :: F) (m.withStore s) := by
  have hstate : ∀ {x s}, m.store.record id i (.ok v) = (x, s) → ∀ q, s.state q = m.store.state q := by
    intro x s hs q
    have := m.store.state_record id i (.ok v) q
    rwa [hs] at this
  have hadvance : ∀ {x s}, m.store.record id i (.ok v) = (x, s) → Advance S G m G (m.withStore s) := by
    intro x s hs
    refine ⟨.refl G, fun {q} hq => ?_, fun hf => hf⟩
    change s.isPending q = true at hq
    rwa [Store.isPending, hstate hs] at hq
  have hload : ∀ {x s}, m.store.record id i (.ok v) = (x, s) →
      S.load G F (m.withStore s) = S.load G F m := by
    intro x s hs
    have hsize : s.promises.size = m.store.promises.size := by
      have := m.store.size_record id i (.ok v)
      rwa [hs] at this
    simp only [Setting.load]
    change S.total s _ + ((S.tasks m).map _).sum + _ = _
    rw [Setting.total_congr hsize (hstate hs)]
  rcases h.record hg hv with ⟨s, hs, hgood⟩ | ⟨s, hs, hgood⟩
  · refine .inl ⟨s, hs, hadvance hs, hgood, ?_, rfl⟩
    rw [Setting.load_cons, hload hs, Plan.load]
    omega
  · refine .inr ⟨s, hs, hadvance hs, hgood, ?_, rfl⟩
    rw [Setting.load_cons, Setting.load_cons, hload hs, Plan.load, Plan.load]

end Good

/-! ## Tasks and functions -/

namespace Machine

theorem function?_withFunction_self (m : Machine) (f : Function) :
    (m.withFunction f).function? ⟨m.rest.functions.size⟩ = some f := Array.getElem?_push_size

theorem function?_withFunction {m : Machine} {id : FunctionId} {f g : Function}
    (h : m.function? id = some g) : (m.withFunction f).function? id = some g := by
  obtain ⟨hlt, -⟩ := Array.getElem?_eq_some_iff.1 h
  rw [function?, withFunction, Array.getElem?_push, if_neg (Nat.ne_of_lt hlt)]
  exact h

theorem Knows.withFunction {m : Machine} {fs : Array Function} (h : m.Knows fs) (f : Function) :
    (m.withFunction f).Knows fs := by
  intro id hid
  have hfs : ∃ g, fs[id.index]? = some g := by
    unfold allows at hid
    cases hg : fs[id.index]? with
    | none =>
      rw [hg] at hid
      cases hid
    | some g => exact ⟨g, rfl⟩
  obtain ⟨g, hg⟩ := hfs
  rw [hg]
  exact function?_withFunction ((h id hid).trans hg)

end Machine

namespace Good

variable {S : Setting} {G : Plan} {F : List (Continuation Handler)} {m : Machine} {task : Task}

/-- Another queue and other continuations in flight, so long as each task and each continuation is
taken over by the other side. -/
theorem requeue {F' : List (Continuation Handler)} {queue : List Task} (h : Good S G F m)
    (holder : S.older ≤ queue.length)
    (hsum : ∀ id, (F'.map (Continuation.feeds id)).sum = (F.map (Continuation.feeds id)).sum)
    (hfrom : ∀ k ∈ F', k ∈ F ∨ ∃ t ∈ S.tasks m, k = .adopt t.target)
    (hto : ∀ k ∈ F, k ∈ F' ∨ ∃ t ∈ queue.drop S.older, k = .adopt t.target)
    (hnew : ∀ t ∈ queue.drop S.older, TaskSound S G m t)
    (hold : ∀ t ∈ S.tasks m, t ∈ queue.drop S.older ∨ .adopt t.target ∈ F') :
    Good S G F' (m.withQueue queue) := by
  refine ⟨h.quiet, h.knows, holder, h.start, h.watched, h.inert, h.states, ?_, ?_, ?_, ?_,
    fun t ht => (hnew t ht).mono (.refl G) fun hf => hf⟩
  · intro q u ks hu hs
    cases h.support hu hs with
    | continuation out target =>
      rcases out with hk | hk
      · rcases hto _ hk with hk | ⟨t, ht, rfl⟩
        · exact .continuation (.inl hk) target
        · exact .task ht target
      · exact .continuation (.inr hk) target
    | task queued target =>
      rcases hold _ queued with hq | hk
      · exact .task hq target
      · exact .continuation (.inl hk) target
    | gather gather found undone => exact .gather gather found undone
  · rintro k q (hk | hk) hq
    · rcases hfrom k hk with hk | ⟨t, ht, rfl⟩
      · exact h.aimed (.inl hk) hq
      · obtain rfl : t.target = q := hq
        obtain ⟨-, -, value, -⟩ := h.tasks t ht
        exact ⟨_, value⟩
    · exact h.aimed (.inr hk) hq
  · rintro id i (hk | hk)
    · rcases hfrom _ hk with hk | ⟨t, -, ht⟩
      · exact h.known (.inl hk)
      · cases ht
    · exact h.known (.inr hk)
  · intro id r vs hg
    obtain ⟨g, hfound, hgood⟩ := h.gathers hg
    refine ⟨g, hfound, hgood.mono (.refl G) (by rw [hsum id]; rfl) fun i hk => ?_⟩
    rcases hk with hk | hk
    · rcases hto _ hk with hk | ⟨t, -, ht⟩
      · exact .inl hk
      · cases ht
    · exact .inr hk

/-- A task is put into the queue for a promise in flight. -/
theorem leads_enqueue (h : Good S G (.adopt task.target :: F) m) (ht : TaskSound S G m task) :
    Leads S (G.weight task.target) 1 [] G (.adopt task.target :: F) m G F
      (m.withQueue (m.rest.queue ++ [task])) := by
  have hdrop : (m.rest.queue ++ [task]).drop S.older = S.tasks m ++ [task] :=
    List.drop_append_of_le_length h.older
  refine ⟨⟨.refl G, fun hq => hq, fun hf => hf⟩, h.requeue ?_ (fun id => ?_) (fun k hk => ?_)
    (fun k hk => ?_) (fun t hmem => ?_) (fun t hmem => ?_), ?_, rfl⟩
  · rw [List.length_append]
    exact Nat.le_trans h.older (Nat.le_add_right _ _)
  · simp only [List.map_cons, List.sum_cons, Continuation.feeds, Nat.zero_add]
  · exact .inl (.tail _ hk)
  · rcases List.mem_cons.1 hk with rfl | hk
    · exact .inr ⟨task, by rw [hdrop]; exact List.mem_append_right _ (.head _), rfl⟩
    · exact .inl hk
  · rw [hdrop] at hmem
    rcases List.mem_append.1 hmem with hmem | hmem
    · exact h.tasks t hmem
    · rw [List.mem_singleton.1 hmem]
      exact ht
  · rw [hdrop]
    exact .inl (List.mem_append_left _ hmem)
  · have htasks : S.tasks (m.withQueue (m.rest.queue ++ [task])) = S.tasks m ++ [task] := hdrop
    rw [Setting.load_cons, Setting.load, Setting.load, htasks, List.map_append, List.sum_append,
      List.map_cons, List.sum_cons, List.map_nil, List.sum_nil, Plan.load]
    change S.total m.store _ + _ + _ + 1 ≤ _
    omega

/-- A task is taken from the queue, and its promise is in flight. -/
theorem leads_dequeue {queue : List Task} (h : Good S G F m) (holder : S.older ≤ queue.length)
    (hqueue : (S.tasks m).Perm (task :: queue.drop S.older)) :
    Leads S 1 (G.weight task.target) [] G F m G (.adopt task.target :: F) (m.withQueue queue) := by
  have hmem : ∀ {t}, t ∈ S.tasks m ↔ t = task ∨ t ∈ queue.drop S.older := by
    intro t
    rw [hqueue.mem_iff, List.mem_cons]
  refine ⟨⟨.refl G, fun hq => hq, fun hf => hf⟩, h.requeue holder (fun id => ?_) (fun k hk => ?_)
    (fun k hk => .inl (.tail _ hk)) (fun t ht => h.tasks t (hmem.2 (.inr ht))) (fun t ht => ?_), ?_,
    rfl⟩
  · simp only [List.map_cons, List.sum_cons, Continuation.feeds, Nat.zero_add]
  · rcases List.mem_cons.1 hk with rfl | hk
    · exact .inr ⟨task, hmem.2 (.inl rfl), rfl⟩
    · exact .inl hk
  · rcases hmem.1 ht with rfl | ht
    · exact .inr (.head _)
    · exact .inl ht
  · have hsum := (hqueue.map fun t => G.weight t.target).sum_eq
    rw [List.map_cons, List.sum_cons] at hsum
    rw [Setting.load_cons, Setting.load, Setting.load, hsum, Plan.load]
    change 1 + (S.total m.store _ + ((queue.drop S.older).map _).sum + _) + _ ≤ _
    omega

theorem leads_addFunction (h : Good S G F m) (f : Function) :
    Leads S 0 0 [] G F m G F (m.withFunction f) := by
  refine ⟨⟨.refl G, fun hq => hq, Machine.function?_withFunction⟩, ?_, Nat.le_refl _, rfl⟩
  exact ⟨h.quiet, h.knows.withFunction f, h.older, h.start, h.watched, h.inert, h.states,
    fun hu hs =>
      match h.support hu hs with
      | .continuation out target => .continuation out target
      | .task queued target => .task queued target
      | .gather gather found undone => .gather gather found undone,
    h.aimed, h.known, h.gathers,
    fun t ht => (h.tasks t ht).mono (.refl G) Machine.function?_withFunction⟩

/-! ## When nothing is left to do -/

/-- A promise that has something waiting for it is planned for. -/
theorem sound_of_waiting (h : Good S G F m) {q : PromiseId} {ks : List (Continuation Handler)}
    (hw : S.watches q = true) (hs : m.store.state q = .pending ks) {k : Continuation Handler}
    (hk : k ∈ ks) : ∃ w, G.value q = some w ∧ Sound S G (m.store.dueBeside q) w (G.rank q) k := by
  have hhas : m.store.Has q := by
    by_contra hn
    rw [Store.state_of_not_has hn] at hs
    cases hs
    cases hk
  obtain ⟨w, hw⟩ := (h.watched q).2 ⟨hw, hhas⟩
  rcases h.states hw with hf | ⟨ks', hs', hsound⟩
  · rw [hs] at hf
    cases hf
  · rw [hs] at hs'
    cases hs'
    exact ⟨w, hw, hsound k hk⟩

/-- With nothing in flight and nothing queued, a pending promise depends on another one of lower
rank. -/
theorem pending_below (h : Good S G [] m) (hqueue : S.tasks m = []) {p : PromiseId} {v : Value}
    {ks : List (Continuation Handler)} (hv : G.value p = some v)
    (hs : m.store.state p = .pending ks) :
    ∃ q w ks', G.value q = some w ∧ m.store.state q = .pending ks' ∧ G.rank q < G.rank p := by
  cases h.support hv hs with
  | continuation out target =>
    rcases out with hk | ⟨q, ks', hq, hs', hk⟩
    · cases hk
    · obtain ⟨w, hw, hsound⟩ := h.sound_of_waiting hq hs' hk
      exact ⟨q, w, ks', hw, hs', hsound.lt_of_targets target⟩
  | task queued target =>
    rw [hqueue] at queued
    cases queued
  | @gather id vs g gather found undone =>
    obtain ⟨g', hfound, hgood⟩ := h.gathers gather
    obtain rfl : g = g' := Option.some.inj (found.symm.trans hfound)
    -- The gather still misses an operand, which waits somewhere.
    by_contra hnone
    have hzero : S.total m.store (Continuation.feeds id) = 0 := by
      refine Setting.total_eq_zero fun q ks' hq hs' k hk => ?_
      obtain ⟨w, hw, hsound⟩ := h.sound_of_waiting hq hs' hk
      cases hsound with
      | @gather id' _ r vs' hg _ _ hrank =>
        rw [Continuation.feeds, if_neg]
        rintro rfl
        rw [gather] at hg
        cases hg
        exact hnone ⟨q, w, ks', hw, hs', hrank⟩
      | _ => rfl
    have hremaining := hgood.remaining
    rw [hzero, List.map_nil, List.sum_nil] at hremaining
    rw [hgood.done.2 hremaining] at undone
    cases undone

/-- With nothing in flight and nothing queued, each promise that is planned for has its value. -/
theorem settled_of_idle (h : Good S G [] m) (hqueue : S.tasks m = []) {p : PromiseId} {v : Value}
    (hv : G.value p = some v) : m.store.state p = .fulfilled v := by
  induction hρ : G.rank p using Nat.strong_induction_on generalizing p v with
  | _ ρ ih =>
    rcases h.states hv with hs | ⟨ks, hs, -⟩
    · exact hs
    · obtain ⟨q, w, ks', hw, hs', hlt⟩ := h.pending_below hqueue hv hs
      have hfulfilled := ih (G.rank q) (by omega) hw rfl
      rw [hs'] at hfulfilled
      cases hfulfilled

end Good

end Deferral
