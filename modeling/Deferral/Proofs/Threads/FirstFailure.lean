import Deferral.Proofs.Threads.Awards

/-!
# Which failure a gather reports

A promise fails before its continuations run, and so an operand that has failed can still be on its way
to the gather while another one fails and is handed over first. What the result of a gather reports is
the failure that it is handed first (`Scene.FirstHanded`): until then it is open, and an open gather has
the outcomes of its operands but for those whose shares are still somewhere. So the share of any operand
that had failed before is in the hands of a thread, from the moment the operand failed until the gather
is handed the other one (`underway_of_failed`). If no operand fails in the meantime, it is the operand
that has failed first (`FirstHanded.firstFailed_or_overtaken`).
-/

set_option autoImplicit false

namespace Deferral

variable {η σ : Type} {handle : η → Outcome → Routine η σ Outcome} {w : World η σ} {trace : Trace η}
  {d : Duty η σ} {effect : Effect η σ}

theorem Mark.combined?_eq_some {mark : Mark η} {id : GatherId} {o : Outcome} :
    mark.combined? id = some o ↔ mark = .combined id o := by
  cases mark <;> simp [Mark.combined?]

theorem Trace.mem_combinations {id : GatherId} {o : Outcome} :
    o ∈ trace.combinations id ↔ .combined id o ∈ trace := by
  simp [combinations, Mark.combined?_eq_some]

/-- The promise that a program itself has given an outcome. -/
def Mark.byHand? : Mark η → Option PromiseId
  | .byHand p => some p
  | _ => none

theorem Trace.not_byHand {hands : List PromiseId} {p : PromiseId}
    (h : trace.filterMap Mark.byHand? = hands)
    (hp : p ∉ hands) : .byHand p ∉ trace := fun hmem =>
  hp (h ▸ List.mem_filterMap.2 ⟨_, hmem, rfl⟩)

/-! ## An open gather -/

section

variable {s : Store η} {p q : PromiseId} {o : Outcome} {e : Error} {D R : Multiset (Duty η σ)}
  {id : GatherId} {operands : List Value} {r : PromiseId} {i : Nat}

/-- How far it has come with a gather that has been opened for operands. -/
theorem Awards.standing (h : Awards s trace D) (hs : Shares s trace D)
    (hmem : .gathering (some id) operands r ∈ trace) :
    ∃ g, s.gathers[id.index]? = some g ∧
      Standing s trace id operands (missing id (outstanding s D)) g := by
  obtain ⟨g, hg, hresult⟩ := h.opened id operands r hmem
  obtain ⟨operands', hmem', hstanding⟩ := hs.standing id g hg
  obtain ⟨-, rfl⟩ := hs.unique _ _ _ _ _ hmem (hresult ▸ hmem')
  exact ⟨g, hg, hstanding⟩

/-- A gather that has yielded nothing is open. -/
theorem Standing.collects {under : Multiset Share} {g : Gather}
    (h : Standing s trace id operands under g) (hopen : trace.combinations id = []) :
    g.done = false ∧ s.Collects operands under g := by
  cases h with
  | gathering hdone hcollects => exact ⟨hdone, hcollects⟩
  | gathered o hdone hgives hone => cases hopen.symm.trans hone

/-- A gather that yields something has yielded nothing before. -/
theorem Standing.open_of_record {under : Multiset Share} {g : Gather} {c : Outcome}
    (h : Standing s trace id operands under g) (hrecord : (g.record i o).2 = some c) :
    g.done = false ∧ trace.combinations id = [] := by
  cases h with
  | gathering hdone _ _ hnone => exact ⟨hdone, hnone⟩
  | gathered o' hdone =>
    rw [g.record_of_done i hdone o] at hrecord
    cases hrecord

/-- An open gather yields a failure when it is handed the failure, and only then. -/
theorem Gather.record_failure_iff {g : Gather} (hdone : g.done = false) :
    (g.record i o).2 = some (.error e) ↔ o = .error e := by
  cases o with
  | error e' =>
    rw [g.record_error i hdone e']
    exact Option.some_inj
  | ok v =>
    by_cases hlast : g.remaining - 1 = 0
    · rw [g.record_last i hdone hlast v]
      exact ⟨nofun, nofun⟩
    · rw [g.record_more i hdone hlast v]
      exact ⟨nofun, nofun⟩

/-- What is noted of a record is what the gather has yielded. -/
theorem Store.mem_combined_iff {g : Gather} (hg : s.gathers[id.index]? = some g) {c : Outcome} :
    (.combined id c : Mark η) ∈ (s.record id i o).1.toList.map (fun f => .combined id f.2) ↔
      (g.record i o).2 = some c := by
  rw [record_of_gather hg]
  cases (g.record i o).2 <;> simp [eq_comm]

/-- Whatever has failed, and has not come to an open gather, is in the hands of a thread. -/
theorem underway_of_failed (h : Awards s trace D) (hs : Shares s trace D)
    (hmem : .gathering (some id) operands r ∈ trace) (hopen : trace.combinations id = [])
    (hplace : operands[i]? = some (.promise q)) (hq : s.outcome? q = some (.error e)) :
    ∃ d ∈ D, ⟨id, q, i⟩ ∈ d.shares := by
  obtain ⟨g, -, hstanding⟩ := h.standing hs hmem
  obtain ⟨-, hcollects⟩ := hstanding.collects hopen
  rcases hcollects.filled i _ hplace with ⟨x, hmissing, rfl⟩ | ⟨v, -, hv⟩
  · obtain ⟨hx, rfl⟩ := Multiset.mem_filter.1 hmissing
    obtain rfl : x.promise = q := by
      cases (hcollects.place x hmissing).symm.trans hplace
      rfl
    rcases Multiset.mem_add.1 hx with hx | hx
    · -- what waits waits for a pending promise
      obtain ⟨⟨p, k⟩, hk, hxk⟩ := Multiset.mem_bind.1 hx
      obtain ⟨ks, hks, -⟩ := Store.mem_waits.1 hk
      cases k with
      | gather id' i' =>
        obtain rfl := Multiset.mem_singleton.1 hxk
        rw [Store.outcome?, hks] at hq
        cases hq
      | _ => cases Multiset.notMem_zero _ hxk
    · exact Multiset.mem_bind.1 hx
  · cases hq.symm.trans hv

/-- A gather yields a failure when it is handed the failure of one of its operands, and has not yielded
anything before. -/
theorem handed_of_combined (h : Awards w.store trace (d ::ₘ R)) (hs : Shares w.store trace (d ::ₘ R))
    (hact : d.act handle w trace = some effect) (hmem : .gathering (some id) operands r ∈ trace)
    (hmark : .combined id (.error e) ∈ effect.marks) :
    trace.combinations id = [] ∧ ∃ p place, d = .record p id place (.error e) ∧
      operands[place]? = some (.promise p) ∧ w.store.outcome? p = some (.error e) := by
  cases Duty.deals hact with
  | opens => cases List.mem_singleton.1 hmark
  | apart hd => cases hd.marks _ hmark
  | @records p id' place o =>
    obtain rfl : id' = id := by
      obtain ⟨_, -, heq⟩ := List.mem_map.1 hmark
      exact (Mark.combined.inj heq).1
    obtain ⟨g, hg, hstanding⟩ := h.standing hs hmem
    have hrecord := (Store.mem_combined_iff hg).1 hmark
    obtain ⟨hdone, hopen⟩ := hstanding.open_of_record hrecord
    obtain rfl := (Gather.record_failure_iff hdone).1 hrecord
    have hshare : (⟨id', p, place⟩ : Share) ∈
        missing id' (outstanding w.store (.record p id' place (.error e) ::ₘ R)) := by
      rw [outstanding_cons]
      exact Multiset.mem_filter.2 ⟨Multiset.mem_add.2 (.inl (Multiset.mem_singleton_self _)), rfl⟩
    exact ⟨hopen, p, place, rfl, (hstanding.collects hopen).2.place _ hshare,
      hs.brought p id' place _ (Multiset.mem_cons_self ..)⟩

/-- An open gather that is handed a failure yields it. -/
theorem combined_of_handed (h : Awards w.store trace D) (hs : Shares w.store trace D)
    (hact : (Duty.record q id i (.error e)).act handle w trace = some effect)
    (hmem : .gathering (some id) operands r ∈ trace) (hopen : trace.combinations id = []) :
    .combined id (.error e) ∈ effect.marks := by
  obtain ⟨g, hg, hstanding⟩ := h.standing hs hmem
  obtain rfl := Option.some.inj hact
  exact (Store.mem_combined_iff hg).2 ((Gather.record_failure_iff (hstanding.collects hopen).1).2 rfl)

end

/-! ## Moments of a run -/

namespace Scene

variable (handle) (S : Scene η σ) (schedule : List Nat)

/-- The scene of a run after so many steps of its schedule. -/
def moment (n : Nat) : Option (Scene η σ) := S.run handle (schedule.take n)

/-- A promise fails in a step of a run. -/
def FailsAt (n : Nat) (p : PromiseId) (e : Error) : Prop :=
  ∃ X Y, S.moment handle schedule n = some X ∧ S.moment handle schedule (n + 1) = some Y ∧
    X.world.store.outcome? p = none ∧ Y.world.store.outcome? p = some (.error e)

/-- A step of a run does the first part of a duty. -/
def DoesAt (n : Nat) (d : Duty η σ) : Prop :=
  ∃ X i rest, S.moment handle schedule n = some X ∧ schedule[n]? = some i ∧
    X.threads[i]? = some (d :: rest)

/-- A share is in the hands of a thread: it is going to register it, to call it or to record it. -/
def Underway (x : Share) : Prop := ∃ d ∈ S.duties, x ∈ d.shares

/-- The error is that of the operand that fails first in a run. -/
def FirstFailed (operands : List Value) (e : Error) : Prop :=
  ∃ p n, .promise p ∈ operands ∧ S.FailsAt handle schedule n p e ∧
    ∀ q k e', .promise q ∈ operands → S.FailsAt handle schedule k q e' → n ≤ k

/-- The failure that a gather is handed first in a run, and where those of other operands are until
then. -/
structure FirstHanded (id : GatherId) (operands : List Value) (e : Error) (p : PromiseId)
    (place n m : Nat) : Prop where
  operand : operands[place]? = some (.promise p)
  fails : S.FailsAt handle schedule n p e
  later : n < m
  handed : S.DoesAt handle schedule m (.record p id place (.error e))
  first : ∀ k < m, ∀ q i e', ¬S.DoesAt handle schedule k (.record q id i (.error e'))
  others : ∀ k ≤ m, ∀ X, S.moment handle schedule k = some X → ∀ i q e',
    operands[i]? = some (.promise q) → X.world.store.outcome? q = some (.error e') →
      X.Underway ⟨id, q, i⟩

section

variable {handle S schedule} {S' X Y : Scene η σ} {n m k : Nat} {p q : PromiseId} {o : Outcome}
  {e : Error} {i : Nat} {id : GatherId} {operands : List Value} {r : PromiseId} {place : Nat}

theorem run_append (l l' : List Nat) (S : Scene η σ) :
    S.run handle (l ++ l') = (S.run handle l).bind (run handle l') := by
  induction l generalizing S with
  | nil => rfl
  | cons i l ih =>
    rw [List.cons_append, run, run, Option.bind_assoc]
    exact congrArg _ (funext ih)

theorem moment_take (h : n ≤ m) :
    S.moment handle (schedule.take m) n = S.moment handle schedule n := by
  rw [moment, moment, List.take_take, Nat.min_eq_left h]

/-- A run has a scene at every moment. -/
theorem exists_moment (h : S.run handle schedule = some S') (n : Nat) :
    ∃ X, S.moment handle schedule n = some X := by
  rw [← List.take_append_drop n schedule, run_append] at h
  obtain ⟨X, hX, -⟩ := Option.bind_eq_some_iff.1 h
  exact ⟨X, hX⟩

/-- A run goes from each of its moments to its end. -/
theorem steps_of_moment (h : S.run handle schedule = some S')
    (hX : S.moment handle schedule n = some X) : Relation.ReflTransGen (Step handle) X S' := by
  rw [← List.take_append_drop n schedule, run_append] at h
  obtain ⟨X', hX', hrest⟩ := Option.bind_eq_some_iff.1 h
  obtain rfl := Option.some.inj (hX.symm.trans hX')
  exact steps_of_run hrest

/-- A run goes from each moment to every later one. -/
theorem steps_of_moments (hX : S.moment handle schedule n = some X)
    (hY : S.moment handle schedule m = some Y) (h : n ≤ m) :
    Relation.ReflTransGen (Step handle) X Y :=
  steps_of_moment hY ((moment_take h).trans hX)

theorem moment_succ (hX : S.moment handle schedule n = some X) (hi : schedule[n]? = some i) :
    S.moment handle schedule (n + 1) = X.step handle i := by
  rw [moment] at hX
  rw [moment, List.take_add_one, hi, run_append, hX]
  exact Option.bind_fun_some _

/-- What did not hold and does hold has begun to hold in some step. -/
theorem exists_step_of_run {P : Scene η σ → Prop} (h : S.run handle schedule = some S')
    (hbefore : ¬P S) (hafter : P S') :
    ∃ n X Y i, schedule[n]? = some i ∧ S.moment handle schedule n = some X ∧
      S.moment handle schedule (n + 1) = some Y ∧ X.step handle i = some Y ∧ ¬P X ∧ P Y := by
  induction schedule generalizing S with
  | nil =>
    obtain rfl := Option.some.inj h
    exact absurd hafter hbefore
  | cons j rest ih =>
    obtain ⟨S₁, hstep, hrest⟩ := Option.bind_eq_some_iff.1 h
    have hmoment : ∀ n, S.moment handle (j :: rest) (n + 1) = S₁.moment handle rest n := fun n => by
      rw [moment, List.take_succ_cons, run, hstep]
      rfl
    by_cases hS₁ : P S₁
    · exact ⟨0, S, S₁, j, rfl, rfl, hmoment 0, hstep, hbefore, hS₁⟩
    · obtain ⟨n, X, Y, i, hi, hX, hY, hXY, hnot, hP⟩ := ih hrest hS₁
      exact ⟨n + 1, X, Y, i, hi, (hmoment n).trans hX, (hmoment (n + 1)).trans hY, hXY, hnot, hP⟩

theorem step_eq (h : X.step handle i = some Y) :
    ∃ d rest effect, X.threads[i]? = some (d :: rest) ∧ d.act handle X.world X.trace = some effect ∧
      Y = ⟨effect.world, X.threads.set i (effect.duties ++ rest), effect.marks ++ X.trace⟩ := by
  unfold step at h
  split at h
  · rename_i d rest hthread
    obtain ⟨effect, hact, rfl⟩ := Option.map_eq_some_iff.1 h
    exact ⟨d, rest, effect, hthread, hact, rfl⟩
  · cases h

theorem mem_duties {d : Duty η σ} {rest : List (Duty η σ)} (h : X.threads[i]? = some (d :: rest)) :
    d ∈ X.duties :=
  List.mem_flatten.2 ⟨d :: rest, List.mem_of_getElem? h, .head _⟩

theorem mem_trace_of_steps {mark : Mark η} (h : mark ∈ X.trace)
    (hsteps : Relation.ReflTransGen (Step handle) X Y) : mark ∈ Y.trace := by
  induction hsteps with
  | refl => exact h
  | tail _ hstep ih =>
    obtain ⟨d, others, effect, -, -, -, htrace, -⟩ := hstep.act
    rw [htrace]
    exact List.mem_append_right _ ih

/-- A promise that has failed in the course of a run failed in one of its steps. -/
theorem exists_failsAt (hX : S.moment handle schedule m = some X)
    (hbefore : S.world.store.outcome? p ≠ some (.error e))
    (hfailed : X.world.store.outcome? p = some (.error e)) :
    ∃ n < m, S.FailsAt handle schedule n p e := by
  obtain ⟨n, Y, Y', i, hi, hY, hY', hstep, hnot, hfails⟩ := exists_step_of_run
    (P := fun X => X.world.store.outcome? p = some (.error e)) hX hbefore hfailed
  have hn : n < m := by
    have hlt := (List.getElem?_eq_some_iff.1 hi).1
    rw [List.length_take] at hlt
    omega
  rw [moment_take hn.le] at hY
  rw [moment_take hn] at hY'
  refine ⟨n, hn, Y, Y', hY, hY', ?_, hfails⟩
  cases ho : Y.world.store.outcome? p with
  | none => rfl
  | some o =>
    obtain rfl := Option.some.inj ((outcome?_steps (.single ⟨i, hstep⟩) ho).symm.trans hfails)
    exact absurd ho hnot

/-! ## A run in which a gather is open -/

section

variable (hS : S.Accounts) (ha : Awards S.world.store S.trace S.duties)
  (hmem : .gathering (some id) operands r ∈ S.trace) (hY : S.moment handle schedule m = some Y)
  (hopen : Y.trace.combinations id = [])

include hY hopen in
/-- A gather that has yielded nothing had yielded nothing before. -/
theorem not_combined_of_le (hX : S.moment handle schedule k = some X) (hk : k ≤ m) :
    .combined id o ∉ X.trace := by
  intro hmark
  have hlater := Trace.mem_combinations.2 (mem_trace_of_steps hmark (steps_of_moments hX hY hk))
  rw [hopen] at hlater
  cases hlater

include hY hopen in
theorem combinations_eq_nil_of_le (hX : S.moment handle schedule k = some X) (hk : k ≤ m) :
    X.trace.combinations id = [] :=
  List.eq_nil_iff_forall_not_mem.2 fun _ ho =>
    not_combined_of_le hY hopen hX hk (Trace.mem_combinations.1 ho)

include hS ha hmem hY hopen

/-- The share of an operand that has failed is under way. -/
theorem underway_of_le (hX : S.moment handle schedule k = some X) (hk : k ≤ m)
    (hplace : operands[i]? = some (.promise q)) (hq : X.world.store.outcome? q = some (.error e)) :
    X.Underway ⟨id, q, i⟩ := by
  have hsteps := steps_of_run hX
  exact underway_of_failed (hS.awards_steps ha hsteps) (hS.steps hsteps).shares
    (mem_trace_of_steps hmem hsteps) (combinations_eq_nil_of_le hY hopen hX hk) hplace hq

/-- The gather has not been handed a failure. -/
theorem not_handed_of_lt (hk : k < m) : ¬S.DoesAt handle schedule k (.record q id i (.error e)) := by
  rintro ⟨X, j, rest, hX, hj, hthread⟩
  obtain ⟨Z, hZ⟩ := exists_moment hY (k + 1)
  rw [moment_take hk] at hZ
  obtain ⟨d, rest', effect, hthread', hact, rfl⟩ := step_eq ((moment_succ hX hj).symm.trans hZ)
  cases hthread.symm.trans hthread'
  have hsteps := steps_of_run hX
  have hcombined := combined_of_handed (hS.awards_steps ha hsteps) (hS.steps hsteps).shares hact
    (mem_trace_of_steps hmem hsteps) (combinations_eq_nil_of_le hY hopen hX hk.le)
  exact not_combined_of_le hY hopen hZ hk (List.mem_append_left X.trace hcombined)

end

/-- A gather that comes to yield a failure in a run has been handed that failure first. -/
theorem exists_firstHanded (hS : S.Accounts) (ha : Awards S.world.store S.trace S.duties)
    (hmem : .gathering (some id) operands r ∈ S.trace) (hrun : S.run handle schedule = some S')
    (hpending : ∀ q e', .promise q ∈ operands → S.world.store.outcome? q ≠ some (.error e'))
    (hbefore : .combined id (.error e) ∉ S.trace) (hafter : .combined id (.error e) ∈ S'.trace) :
    ∃ p place n m, S.FirstHanded handle schedule id operands e p place n m := by
  obtain ⟨m, X, Y, i, hi, hX, hY, hstep, hnot, hcombined⟩ := exists_step_of_run
    (P := fun X => .combined id (.error e) ∈ X.trace) hrun hbefore hafter
  obtain ⟨d, rest, effect, hthread, hact, rfl⟩ := step_eq hstep
  have hsteps := steps_of_run hX
  have haX := hS.awards_steps ha hsteps
  have hsX := (hS.steps hsteps).shares
  obtain ⟨R, hduties⟩ := Multiset.exists_cons_of_mem (mem_duties hthread)
  rw [hduties] at haX hsX
  obtain ⟨hopen, p, place, rfl, hplace, hp⟩ := handed_of_combined haX hsX hact
    (mem_trace_of_steps hmem hsteps) ((List.mem_append.1 hcombined).resolve_right hnot)
  obtain ⟨n, hn, hfails⟩ := exists_failsAt hX (hpending p e (List.mem_of_getElem? hplace)) hp
  exact ⟨p, place, n, m, hplace, hfails, hn, ⟨X, i, rest, hX, hi, hthread⟩,
    fun k hk q i e' => not_handed_of_lt hS ha hmem hX hopen hk,
    fun k hk X' hX' i q e' => underway_of_le hS ha hmem hX hopen hX' hk⟩

/-- The operand whose failure a gather is handed first has failed first, unless it failed while the
failure of another operand was under way. -/
theorem FirstHanded.firstFailed_or_overtaken
    (h : S.FirstHanded handle schedule id operands e p place n m) :
    S.FirstFailed handle schedule operands e ∨ ∃ X i q e', S.moment handle schedule n = some X ∧
      operands[i]? = some (.promise q) ∧ X.world.store.outcome? q = some (.error e') ∧
      X.Underway ⟨id, q, i⟩ := by
  by_cases hearlier : ∃ q k e', .promise q ∈ operands ∧ S.FailsAt handle schedule k q e' ∧ k < n
  · obtain ⟨q, k, e', hq, ⟨-, Y, -, hY, -, hfailed⟩, hk⟩ := hearlier
    obtain ⟨X, -, hX, -⟩ := h.fails
    obtain ⟨i, hi⟩ := List.mem_iff_getElem?.1 hq
    have hfailed' := outcome?_steps (steps_of_moments hY hX hk) hfailed
    exact .inr ⟨X, i, q, e', hX, hi, hfailed', h.others n h.later.le X hX i q e' hi hfailed'⟩
  · exact .inl ⟨p, n, List.mem_of_getElem? h.operand, h.fails, fun q k e' hq hfails =>
      Nat.not_lt.1 fun hk => hearlier ⟨q, k, e', hq, hfails, hk⟩⟩

/-- What a thread does that begins to combine operands. -/
theorem step_all {next : PromiseId → Routine η σ Outcome} {target : Option PromiseId}
    {rest : List (Duty η σ)}
    (hthread : S.threads[i]? = some (.perform (.all operands next) target :: rest))
    (hstep : S.step handle i = some S') :
    (∀ q, S'.world.store.outcome? q = S.world.store.outcome? q) ∧
      ((Promise.places 0 operands = [] ∧
          S'.trace = .gathering none operands S.world.store.fresh.1 :: S.trace) ∨
        S'.trace = .gathering (some ⟨S.world.store.gathers.size⟩) operands S.world.store.fresh.1 ::
          S.trace) := by
  obtain ⟨d, rest', effect, hthread', hact, rfl⟩ := step_eq hstep
  cases hthread.symm.trans hthread'
  change Effect.perform S.world target (.all operands next) = some effect at hact
  refine ⟨fun q => congrArg PromiseState.outcome? ((Effect.perform_quiet hact).state q), ?_⟩
  unfold Effect.perform at hact
  dsimp only at hact
  split at hact
  · rename_i hplaces
    obtain rfl := Option.some.inj hact
    exact .inl ⟨hplaces, rfl⟩
  · obtain rfl := Option.some.inj hact
    exact .inr rfl

end

/-- What the result of combined operands reports, if it fails and no program has settled it by hand, is
the failure that the gather is handed first. An operand that had failed before was on its way to the
gather all the time. -/
theorem all_reports_first_handed (shared : Nat) (rest : σ) (programs : List (Routine η σ Outcome))
    {S₀ S₁ S : Scene η σ} (hsteps : Relation.ReflTransGen (Step handle) (start shared rest programs) S₀)
    {i : Nat} {operands : List Value} {next : PromiseId → Routine η σ Outcome}
    {target : Option PromiseId}
    {duties : List (Duty η σ)}
    (hthread : S₀.threads[i]? = some (.perform (.all operands next) target :: duties))
    (hstep : S₀.step handle i = some S₁)
    (hpending : ∀ q e', .promise q ∈ operands → S₀.world.store.outcome? q ≠ some (.error e'))
    {schedule : List Nat} (hrun : S₁.run handle schedule = some S) {e : Error}
    (hfailed : S.world.store.outcome? S₀.world.store.fresh.1 = some (.error e))
    (hhand : .byHand S₀.world.store.fresh.1 ∉ S.trace) :
    ∃ id p place n m, .gathering (some id) operands S₀.world.store.fresh.1 ∈ S₁.trace ∧
      S₁.FirstHanded handle schedule id operands e p place n m ∧
      (S₁.FirstFailed handle schedule operands e ∨ ∃ X i q e', S₁.moment handle schedule n = some X ∧
        operands[i]? = some (.promise q) ∧ X.world.store.outcome? q = some (.error e') ∧
        X.Underway ⟨id, q, i⟩) := by
  have hS₀ := (Accounts.start shared rest programs).steps hsteps
  have ha₀ := (Accounts.start shared rest programs).awards_steps
    (awards_start shared rest programs) hsteps
  have hstep₁ : Relation.ReflTransGen (Step handle) S₀ S₁ := .single ⟨i, hstep⟩
  have hlater := steps_of_run hrun
  have hS₁ := hS₀.steps hstep₁
  have ha₁ := hS₀.awards_steps ha₀ hstep₁
  obtain ⟨hsame, ⟨hplaces, htrace⟩ | htrace⟩ := step_all hthread hstep
  · -- no promise among the operands, so nothing that could fail
    have hmem := mem_trace_of_steps (htrace ▸ List.mem_cons_self ..) hlater
    have horderly : S.Orderly handle := (hS₁.steps hlater).orderly
    cases horderly.combined_rightly _ _ _ _ hmem hfailed hhand with
    | failure p e hp he =>
      obtain ⟨place, hplace⟩ := List.mem_iff_getElem?.1 hp
      have hwatched : (0 + place, p) ∈ Promise.places 0 operands :=
        Promise.mem_places.2 ⟨place, rfl, hplace⟩
      rw [hplaces] at hwatched
      cases hwatched
  · have hmem :
        .gathering (some ⟨S₀.world.store.gathers.size⟩) operands S₀.world.store.fresh.1 ∈ S₁.trace :=
      htrace ▸ List.mem_cons_self ..
    have hbefore : .combined ⟨S₀.world.store.gathers.size⟩ (.error e) ∉ S₁.trace := by
      rw [htrace]
      intro hcombined
      cases hcombined with
      | tail _ hcombined => exact absurd (hS₀.shares.combined _ _ hcombined) (Nat.lt_irrefl _)
    have hafter := (hS₁.awards_steps ha₁ hlater).given _ operands _ _
      (mem_trace_of_steps hmem hlater) hhand hfailed
    obtain ⟨p, place, n, m, hfirst⟩ := exists_firstHanded hS₁ ha₁ hmem hrun
      (fun q e' hq => by rw [hsame]; exact hpending q e' hq) hbefore hafter
    exact ⟨_, p, place, n, m, hmem, hfirst, hfirst.firstFailed_or_overtaken⟩

/-! ## Runs that do not report what has failed first -/

/-- A handler that fails. -/
def failing : Unit → Outcome → Routine Unit Unit Outcome := fun _ _ => .done (.error .interrupted)

/-- A promise is combined with one that is derived from it, and then made to fail. -/
def overtaking : Scene Unit Unit :=
  start 0 () [.new fun a => .derive a () fun b => .all [.promise a, .promise b] fun _ =>
    .fulfil a (.error .divisionByZero) (.done (.ok .unit))]

/-- The derived promise fails before the failure of the first comes to the gather: what makes it fail
was registered before the gather. -/
theorem overtaking_run : ∃ S₀ S₁ S : Scene Unit Unit, overtaking.run failing [0, 0, 0] = some S₀ ∧
    (∃ next target duties,
      S₀.threads[0]? = some (.perform (.all [.promise ⟨0⟩, .promise ⟨1⟩] next) target :: duties)) ∧
    S₀.step failing 0 = some S₁ ∧ S₁.run failing (List.replicate 16 0) = some S ∧
    (∀ q e, .promise q ∈ [Value.promise ⟨0⟩, .promise ⟨1⟩] →
      S₀.world.store.outcome? q ≠ some (.error e)) ∧
    S₀.world.store.fresh.1 = ⟨2⟩ ∧ S.world.store.outcome? ⟨2⟩ = some (.error .interrupted) ∧
    .byHand ⟨2⟩ ∉ S.trace ∧ S₁.FailsAt failing (List.replicate 16 0) 6 ⟨0⟩ .divisionByZero ∧
    ∃ Y, S₁.moment failing (List.replicate 16 0) 7 = some Y ∧
      Y.world.store.outcome? ⟨0⟩ = some (.error .divisionByZero) ∧
      Y.world.store.outcome? ⟨1⟩ = none := by
  refine ⟨_, _, _, rfl, ⟨_, _, _, rfl⟩, rfl, rfl, fun q e hq => ?_, rfl, rfl,
    Trace.not_byHand rfl (by decide : ⟨2⟩ ∉ [(⟨0⟩ : PromiseId)]), ⟨_, _, rfl, rfl, rfl, rfl⟩,
    _, rfl, rfl, rfl⟩
  cases hq with
  | head => exact nofun
  | tail _ hq =>
    cases List.mem_singleton.1 hq
    exact nofun

theorem all_reports_first_handed_overtaking : ∃ S₀ S₁ S : Scene Unit Unit,
    overtaking.run failing [0, 0, 0] = some S₀ ∧ S₀.step failing 0 = some S₁ ∧
    S₁.run failing (List.replicate 16 0) = some S ∧
    S.world.store.outcome? ⟨2⟩ = some (.error .interrupted) ∧ .byHand ⟨2⟩ ∉ S.trace ∧
    ∃ id p place n m, S₁.FirstHanded failing (List.replicate 16 0) id [.promise ⟨0⟩, .promise ⟨1⟩]
      .interrupted p place n m := by
  obtain ⟨S₀, S₁, S, hbefore, ⟨next, target, duties, hthread⟩, hstep, hrun, hpending, hresult, hfailed,
    hhand, -⟩ := overtaking_run
  obtain ⟨id, p, place, n, m, -, hfirst, -⟩ :=
    all_reports_first_handed failing 0 () _ (steps_of_run hbefore)
    hthread hstep hpending hrun (hresult ▸ hfailed) (hresult ▸ hhand)
  exact ⟨S₀, S₁, S, hbefore, hstep, hrun, hfailed, hhand, id, p, place, n, m, hfirst⟩

/-- A promise is combined, and the result is settled by hand. -/
def settledByHand : Scene Unit Unit :=
  start 0 () [.new fun a => .all [.promise a] fun r =>
    .fulfil r (.error .interrupted) (.done (.ok .unit))]

/-- No operand had failed when the operands were combined, the result fails, and its error is not that of
the operand that fails first: an operand that failed after that has overtaken it, or the result is
settled by hand. -/
theorem not_firstFailed_of_all :
    (∃ S₀ S₁ S : Scene Unit Unit, overtaking.run failing [0, 0, 0] = some S₀ ∧
      (∃ next target duties,
        S₀.threads[0]? = some (.perform (.all [.promise ⟨0⟩, .promise ⟨1⟩] next) target :: duties)) ∧
      S₀.step failing 0 = some S₁ ∧ S₁.run failing (List.replicate 16 0) = some S ∧
      (∀ q e, .promise q ∈ [Value.promise ⟨0⟩, .promise ⟨1⟩] →
        S₀.world.store.outcome? q ≠ some (.error e)) ∧
      S.world.store.outcome? S₀.world.store.fresh.1 = some (.error .interrupted) ∧
      .byHand S₀.world.store.fresh.1 ∉ S.trace ∧
      ¬S₁.FirstFailed failing (List.replicate 16 0) [.promise ⟨0⟩, .promise ⟨1⟩] .interrupted) ∧
    ∃ S₀ S₁ S : Scene Unit Unit, settledByHand.run failing [0] = some S₀ ∧
      (∃ next target duties,
        S₀.threads[0]? = some (.perform (.all [.promise ⟨0⟩] next) target :: duties)) ∧
      S₀.step failing 0 = some S₁ ∧ S₁.run failing (List.replicate 6 0) = some S ∧
      (∀ q e, .promise q ∈ [Value.promise ⟨0⟩] → S₀.world.store.outcome? q ≠ some (.error e)) ∧
      S.world.store.outcome? S₀.world.store.fresh.1 = some (.error .interrupted) ∧
      ¬S₁.FirstFailed failing (List.replicate 6 0) [.promise ⟨0⟩] .interrupted := by
  constructor
  · obtain ⟨S₀, S₁, S, hbefore, hthread, hstep, hrun, hpending, hresult, hfailed, hhand, hfails, Y, hY,
      hfirst, hsecond⟩ := overtaking_run
    refine ⟨S₀, S₁, S, hbefore, hthread, hstep, hrun, hpending, hresult ▸ hfailed, hresult ▸ hhand, ?_⟩
    rintro ⟨p, n, hp, ⟨-, X, -, hX, -, hfailsAt⟩, hleast⟩
    have hn := hleast ⟨0⟩ 6 _ (.head _) hfails
    have hlater := outcome?_steps (steps_of_moments hX hY (Nat.succ_le_succ hn)) hfailsAt
    cases hp with
    | head => cases hfirst.symm.trans hlater
    | tail _ hp =>
      cases List.mem_singleton.1 hp
      cases hsecond.symm.trans hlater
  · have hsettled : ∃ S₀ S₁ S : Scene Unit Unit, settledByHand.run failing [0] = some S₀ ∧
        (∃ next target duties,
          S₀.threads[0]? = some (.perform (.all [.promise ⟨0⟩] next) target :: duties)) ∧
        S₀.step failing 0 = some S₁ ∧ S₁.run failing (List.replicate 6 0) = some S ∧
        S₀.world.store.outcome? ⟨0⟩ = none ∧ S.world.store.outcome? ⟨0⟩ = none ∧
        S.world.store.outcome? S₀.world.store.fresh.1 = some (.error .interrupted) :=
      ⟨_, _, _, rfl, ⟨_, _, _, rfl⟩, rfl, rfl, rfl, rfl, rfl⟩
    obtain ⟨S₀, S₁, S, hbefore, hthread, hstep, hrun, hpending, hnone, hfailed⟩ := hsettled
    refine ⟨S₀, S₁, S, hbefore, hthread, hstep, hrun, fun q e hq => ?_, hfailed, ?_⟩
    · cases List.mem_singleton.1 hq
      rw [hpending]
      exact nofun
    · rintro ⟨p, n, hp, ⟨-, X, -, hX, -, hfailsAt⟩, -⟩
      cases List.mem_singleton.1 hp
      cases hnone.symm.trans (outcome?_steps (steps_of_moment hrun hX) hfailsAt)

end Scene

end Deferral
