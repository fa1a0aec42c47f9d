import Deferral.Proofs.Threads.Entitlement

/-!
# Registration and settlement do not race

Whatever the threads do, and in whatever order they come to their steps, a promise is settled once, a
continuation is called at most once and not forgotten, and a gather yields one outcome, which is what has
come of its operands (`Scene.Orderly`). The three accounts of tickets, shares and entitlements hold when
the threads begin (`Accounts.start`), every step keeps them (`Accounts.step`), and so they hold in every
scene that can be reached.
-/

set_option autoImplicit false

namespace Deferral

variable {η σ : Type}

namespace Scene

variable (handle : η → Outcome → Routine η σ Outcome) (S : Scene η σ)

/-- What holds of promises, continuations and gathers that threads share. -/
structure Orderly : Prop where
  /-- One attempt to settle a settled promise has had an effect, the one with its outcome. -/
  settled_once : ∀ p, S.trace.settlements p = (S.world.store.outcome? p).toList
  /-- The outcome stays. -/
  settled_for_good : ∀ p o S', S.world.store.outcome? p = some o →
    Relation.ReflTransGen (Step handle) S S' → S'.world.store.outcome? p = some o
  /-- Whatever has been called was given to its promise, and has seen its outcome. -/
  called_rightly : ∀ p i k o, .invoked ⟨p, i⟩ k o ∈ S.trace →
    (S.trace.givens p)[i]? = some k ∧ S.world.store.outcome? p = some o
  /-- Nothing is called twice. -/
  called_once : S.trace.invocations.Nodup
  /-- In the end nothing that was given to a settled promise has been forgotten. -/
  called_finally : S.Finished → ∀ p o i k, S.world.store.outcome? p = some o →
    (S.trace.givens p)[i]? = some k → .invoked ⟨p, i⟩ k o ∈ S.trace
  /-- At most one record yields the combined outcome of a gather. -/
  combined_once : ∀ id, (S.trace.combinations id).length ≤ 1
  /-- A value that is about to be recorded is one of those that an open gather misses, and has a place in
  it. -/
  remaining_pos : ∀ p id i v, .record p id i (.ok v) ∈ S.duties →
    ∃ g, S.world.store.gathers[id.index]? = some g ∧
      (g.done = false → 0 < g.remaining ∧ i < g.values.length)
  /-- The result of combined operands has the outcome that has come of them, unless a program has settled
  it by hand. -/
  combined_rightly : ∀ id operands r o, .gathering id operands r ∈ S.trace →
    S.world.store.outcome? r = some o → .byHand r ∉ S.trace → S.world.store.Gives operands o

/-- The accounts of tickets, of shares and of entitlements. -/
structure Accounts : Prop where
  tickets : Tickets S.world.store S.trace S.duties
  shares : Shares S.world.store S.trace S.duties
  entitled : Entitled S.world.store S.trace S.duties

section

variable {handle S} {S' : Scene η σ}

theorem state_start (shared : Nat) (rest : σ) (programs : List (Routine η σ Outcome)) (p : PromiseId) :
    (start shared rest programs).world.store.state p = .pending [] := by
  simp only [start, Store.state, Array.getElem?_replicate]
  split <;> rfl

theorem mem_duties_start {shared : Nat} {rest : σ} {programs : List (Routine η σ Outcome)}
    {d : Duty η σ} (h : d ∈ (start shared rest programs).duties) : ∃ r, d = .perform r none := by
  obtain ⟨thread, hthread, hd⟩ := List.mem_flatten.1 (Multiset.mem_coe.1 h)
  obtain ⟨r, -, rfl⟩ := List.mem_map.1 hthread
  exact ⟨r, List.mem_singleton.1 hd⟩

theorem Accounts.start (shared : Nat) (rest : σ) (programs : List (Routine η σ Outcome)) :
    (start shared rest programs).Accounts := by
  have hstate := state_start shared rest programs
  have hnone : ∀ p, (Scene.start shared rest programs).world.store.outcome? p = none :=
    fun p => congrArg PromiseState.outcome? (hstate p)
  have hpending : ∀ p ks, (Scene.start shared rest programs).world.store.state p = .pending ks →
      ks = [] := fun p ks h => (PromiseState.pending.inj ((hstate p).symm.trans h)).symm
  have houtstanding : ∀ x, x ∉ outstanding (Scene.start shared rest programs).world.store
      (Scene.start shared rest programs).duties := by
    intro x hx
    rcases Multiset.mem_add.1 hx with hx | hx
    · obtain ⟨⟨p, k⟩, hk, -⟩ := Multiset.mem_bind.1 hx
      obtain ⟨ks, hks, hk⟩ := Store.mem_waits.1 hk
      obtain rfl := hpending p ks hks
      cases hk
    · obtain ⟨d, hd, hx⟩ := Multiset.mem_bind.1 hx
      obtain ⟨r, rfl⟩ := mem_duties_start hd
      exact Multiset.notMem_zero x hx
  refine ⟨⟨hpending, fun p => ?_, fun ticket k o h => ?_, nofun, fun ticket => ?_⟩,
    ⟨nofun, nofun, nofun, fun x hx => absurd hx (houtstanding x), nofun, fun p id i o h => ?_⟩,
    ⟨fun p o h => ?_, fun p ks h k hk => ?_, fun d hd => ?_⟩⟩
  · rw [hnone]
    rfl
  · obtain ⟨r, hr⟩ := mem_duties_start h
    cases hr
  · have hzero : (Scene.start shared rest programs).duties.filterMap Duty.ticket? = 0 := by
      refine Multiset.eq_zero_of_forall_notMem fun ticket hmem => ?_
      obtain ⟨d, hd, hticket⟩ := (Multiset.mem_filterMap _ _).1 hmem
      obtain ⟨r, rfl⟩ := mem_duties_start hd
      cases hticket
    rw [hzero, hnone]
    rfl
  · obtain ⟨r, hr⟩ := mem_duties_start h
    cases hr
  · rw [hnone] at h
    cases h
  · obtain rfl := hpending p ks h
    cases hk
  · obtain ⟨r, rfl⟩ := mem_duties_start hd
    exact nofun

theorem Accounts.step (h : S.Accounts) (hstep : Step handle S S') : S'.Accounts := by
  obtain ⟨d, others, effect, hact, hbefore, hworld, htrace, hafter⟩ := hstep.act
  obtain ⟨ht, hs, he⟩ := h
  rw [hbefore] at ht hs he
  refine ⟨?_, ?_, ?_⟩
  all_goals rw [hworld, htrace, hafter]
  · exact ht.act hact
  · exact hs.act ht hact
  · exact he.act hs hact

theorem Accounts.steps (h : S.Accounts) (hsteps : Relation.ReflTransGen (Step handle) S S') :
    S'.Accounts := by
  induction hsteps with
  | refl => exact h
  | tail _ hstep ih => exact ih.step hstep

theorem steps_of_run {schedule : List Nat} (h : S.run handle schedule = some S') :
    Relation.ReflTransGen (Step handle) S S' := by
  induction schedule generalizing S with
  | nil =>
    obtain rfl := Option.some.inj h
    exact .refl
  | cons i rest ih =>
    obtain ⟨S₁, hstep, hrest⟩ := Option.bind_eq_some_iff.1 h
    exact .head ⟨i, hstep⟩ (ih hrest)

theorem outcome?_steps (hsteps : Relation.ReflTransGen (Step handle) S S') {p : PromiseId} {o : Outcome}
    (ho : S.world.store.outcome? p = some o) : S'.world.store.outcome? p = some o := by
  induction hsteps with
  | refl => exact ho
  | tail _ hstep ih =>
    obtain ⟨d, others, effect, hact, -, hworld, -, -⟩ := hstep.act
    rw [hworld]
    exact (Duty.acts hact).extends.outcome p o ih

/-! ## What the accounts come to -/

/-- When no thread has anything to do, what was given to a settled promise has been called. -/
theorem Accounts.called_finally (h : S.Accounts) (hfinished : S.Finished) {p : PromiseId} {o : Outcome}
    {i : Nat} {k : Continuation η} (ho : S.world.store.outcome? p = some o)
    (hk : (S.trace.givens p)[i]? = some k) : .invoked ⟨p, i⟩ k o ∈ S.trace := by
  have hduties : S.duties = 0 := (Multiset.coe_eq_zero _).2 (List.flatten_eq_nil_iff.2 hfinished)
  have hsome : (S.world.store.outcome? p).isSome ∧ i < (S.trace.givens p).length :=
    ⟨by rw [ho]; rfl, (List.getElem?_eq_some_iff.1 hk).1⟩
  have honce := h.tickets.once ⟨p, i⟩
  rw [hduties, Multiset.filterMap_zero, zero_add, Multiset.coe_count, if_pos hsome] at honce
  have hmem : (⟨p, i⟩ : Ticket) ∈ S.trace.invocations :=
    List.count_pos_iff.1 (honce ▸ Nat.one_pos)
  obtain ⟨mark, hmark, hticket⟩ := List.mem_filterMap.1 hmem
  cases mark with
  | invoked ticket k' o' =>
    obtain rfl := Option.some.inj hticket
    have howes := h.tickets.called _ k' o' hmark
    obtain rfl := Option.some.inj (howes.given.symm.trans hk)
    obtain rfl := Option.some.inj (howes.outcome.symm.trans ho)
    exact hmark
  | _ => cases hticket

theorem Accounts.combined_once (h : S.Accounts) (id : GatherId) :
    (S.trace.combinations id).length ≤ 1 := by
  by_cases hid : id.index < S.world.store.gathers.size
  · obtain ⟨operands, -, hstanding⟩ := h.shares.standing id _ (Array.getElem?_eq_getElem hid)
    cases hstanding with
    | gathering _ _ _ hnone =>
      rw [hnone]
      exact Nat.zero_le _
    | gathered _ _ _ hone =>
      rw [hone]
      exact Nat.le_refl _
  · have hnone : S.trace.combinations id = [] := by
      refine List.filterMap_eq_nil_iff.2 fun mark hmark => ?_
      cases mark with
      | combined id' o =>
        refine if_neg ?_
        rintro rfl
        exact hid (h.shares.combined _ o hmark)
      | _ => rfl
    rw [hnone]
    exact Nat.zero_le _

/-- What is about to be recorded is a share of its gather. -/
theorem Accounts.remaining_pos (h : S.Accounts) {p : PromiseId} {id : GatherId} {i : Nat} {o : Outcome}
    (hmem : .record p id i o ∈ S.duties) : ∃ g, S.world.store.gathers[id.index]? = some g ∧
      (g.done = false → 0 < g.remaining ∧ i < g.values.length) := by
  have hshare : (⟨id, p, i⟩ : Share) ∈ outstanding S.world.store S.duties :=
    Multiset.mem_add.2 (.inr (Multiset.mem_bind.2 ⟨_, hmem, Multiset.mem_singleton_self _⟩))
  have hid := h.shares.known _ hshare
  obtain ⟨operands, -, hstanding⟩ := h.shares.standing id _ (Array.getElem?_eq_getElem hid)
  refine ⟨_, Array.getElem?_eq_getElem hid, fun hopen => ?_⟩
  cases hstanding with
  | gathered o hdone =>
    rw [hopen] at hdone
    cases hdone
  | gathering _ hcollects =>
    have hmissing : (⟨id, p, i⟩ : Share) ∈ missing id (outstanding S.world.store S.duties) :=
      Multiset.mem_filter.2 ⟨hshare, rfl⟩
    have hplace := hcollects.place _ hmissing
    rw [hcollects.remaining, hcollects.length]
    exact ⟨Multiset.card_pos_iff_exists_mem.2 ⟨_, hmissing⟩, (List.getElem?_eq_some_iff.1 hplace).1⟩

theorem Accounts.orderly (h : S.Accounts) : S.Orderly handle where
  settled_once := h.tickets.settled
  settled_for_good p o S' ho hsteps := outcome?_steps hsteps ho
  called_rightly p i k o hmem :=
    have howes := h.tickets.called ⟨p, i⟩ k o hmem
    ⟨howes.given, howes.outcome⟩
  called_once := by
    refine List.nodup_iff_count_le_one.2 fun ticket => ?_
    have honce := h.tickets.once ticket
    rw [Multiset.count_add, Multiset.coe_count] at honce
    split at honce <;> omega
  called_finally hfinished p o i k := h.called_finally hfinished
  combined_once := h.combined_once
  remaining_pos p id i v := h.remaining_pos
  combined_rightly id operands r o hmem ho hhand :=
    ((h.entitled.outcomes r o ho).resolve_left hhand).2 id operands hmem

end

/-- Whatever threads do with promises that they share, every scene they can come to is orderly. -/
theorem orderly_of_steps (shared : Nat) (rest : σ) (programs : List (Routine η σ Outcome))
    {S : Scene η σ} (hsteps : Relation.ReflTransGen (Step handle) (start shared rest programs) S) :
    S.Orderly handle :=
  ((Accounts.start shared rest programs).steps hsteps).orderly

/-- Three threads share two promises: one combines them, the others settle them, and both try to settle
the first. -/
def meeting : Scene Unit Unit :=
  start 2 ()
    [.all [.promise ⟨0⟩, .int 7, .promise ⟨1⟩] fun _ => .done (.ok (.int 0)),
      .onComplete ⟨0⟩ (.notify ()) (.fulfil ⟨0⟩ (.ok (.int 1)) (.done (.ok (.int 0)))),
      .fulfil ⟨1⟩ (.ok (.int 2)) (.fulfil ⟨0⟩ (.ok (.int 3)) (.done (.ok (.int 0))))]

/-- The threads take turns. The second is the first to settle the promise that both try to settle. -/
theorem orderly_of_steps_meeting : ∃ S, meeting.run (fun _ o => .done o)
      [1, 0, 2, 1, 0, 2, 1, 0, 2, 1, 0, 2, 1, 0, 2, 1, 0, 1, 1, 0, 1, 0, 0, 0] = some S ∧
    S.threads = [[], [], []] ∧
    S.world.store.outcome? ⟨2⟩ = some (.ok (.tuple [.int 1, .int 7, .int 2])) ∧
    S.Orderly fun _ o => .done o := by
  have hmeeting : ∃ S, meeting.run (fun _ o => .done o)
      [1, 0, 2, 1, 0, 2, 1, 0, 2, 1, 0, 2, 1, 0, 2, 1, 0, 1, 1, 0, 1, 0, 0, 0] = some S ∧
        S.threads = [[], [], []] ∧
        S.world.store.outcome? ⟨2⟩ = some (.ok (.tuple [.int 1, .int 7, .int 2])) :=
    ⟨_, rfl, rfl, rfl⟩
  obtain ⟨S, hrun, hthreads, houtcome⟩ := hmeeting
  exact ⟨S, hrun, hthreads, houtcome, orderly_of_steps _ 2 () _ (steps_of_run hrun)⟩

end Scene

end Deferral
