import Deferral.Proofs.Threads.Scenes

/-!
# Every continuation is called once

A promise numbers the continuations it is given, and so each has a ticket. While the promise is pending
they wait, in that order; once it is settled each of them is either in the hands of a thread, which is
going to call it, or has been called (`Tickets.once`). A step can move a ticket from the store to a
thread, when it settles the promise or finds it settled, and from a thread to the trace, when it calls
the continuation. These are the cases of `Duty.acts`; every other step is quiet.
-/

set_option autoImplicit false

namespace Deferral

variable {η σ : Type} {handle : η → Outcome → Routine η σ Outcome} {w : World η σ} {trace : Trace η}
  {d : Duty η σ} {effect : Effect η σ}

/-! ## What a step can do to continuations -/

/-- The continuation that is about to be called. -/
def Duty.ticket? : Duty η σ → Option Ticket
  | .invoke ticket _ _ => some ticket
  | _ => none

/-- Nothing that has to do with the continuations or the outcome of a promise. -/
def Mark.silent : Mark η → Bool
  | .byHand _ => true
  | .gathering _ _ _ => true
  | .combined _ _ => true
  | _ => false

/-- A step that neither settles a promise nor moves a continuation. -/
structure Quiet (w : World η σ) (d : Duty η σ) (effect : Effect η σ) : Prop where
  state : ∀ p, effect.world.store.state p = w.store.state p
  has : ∀ p, w.store.Has p → effect.world.store.Has p
  results : ∀ id operands r, .gathering id operands r ∈ effect.marks →
    effect.marks = [.gathering id operands r] ∧ ¬w.store.Has r ∧ effect.world.store.Has r
  ticket : d.ticket? = none
  duties : ∀ e ∈ effect.duties, e.ticket? = none
  marks : ∀ mark ∈ effect.marks, mark.silent = true

theorem Effect.perform_quiet {r : Routine η σ Outcome} {target : Option PromiseId}
    (h : Effect.perform w target r = some effect) : Quiet w (.perform r target) effect := by
  have hstate := w.store.state_fresh
  have hhas : ∀ p, w.store.Has p → w.store.fresh.2.Has p := fun p hp => Store.has_fresh.2 (.inl hp)
  have hnew : ¬w.store.Has w.store.fresh.1 ∧ w.store.fresh.2.Has w.store.fresh.1 :=
    ⟨w.store.not_has_fresh, Store.has_fresh.2 (.inr rfl)⟩
  cases r with
  | done answer =>
    obtain rfl := Option.some.inj h
    refine ⟨fun _ => rfl, fun _ hp => hp, nofun, rfl, fun e he => ?_, nofun⟩
    obtain ⟨_, -, rfl⟩ := List.mem_map.1 he
    rfl
  | panic => cases h
  | onComplete p k next =>
    cases k with
    | notify h' =>
      obtain rfl := Option.some.inj h
      exact ⟨fun _ => rfl, fun _ hp => hp, nofun, rfl, by simp [Duty.ticket?], nofun⟩
    | _ => cases h
  | all operands next =>
    unfold Effect.perform at h
    dsimp only at h
    split at h
    all_goals
      obtain rfl := Option.some.inj h
      refine ⟨hstate, hhas, fun id operands' r hmem => ?_, rfl, by simp [Duty.ticket?],
        by simp [Mark.silent]⟩
      cases List.mem_singleton.1 hmem
      exact ⟨rfl, hnew⟩
  | fulfil p o next =>
    obtain rfl := Option.some.inj h
    exact ⟨fun _ => rfl, fun _ hp => hp, by simp, rfl, by simp [Duty.ticket?], by simp [Mark.silent]⟩
  | look next =>
    obtain rfl := Option.some.inj h
    exact ⟨fun _ => rfl, fun _ hp => hp, nofun, rfl, by simp [Duty.ticket?], nofun⟩
  | change f next =>
    obtain rfl := Option.some.inj h
    exact ⟨fun _ => rfl, fun _ hp => hp, nofun, rfl, by simp [Duty.ticket?], nofun⟩
  | _ =>
    obtain rfl := Option.some.inj h
    exact ⟨hstate, hhas, nofun, rfl, by simp [Duty.ticket?], nofun⟩

/-- What a step can do. -/
inductive Acts (w : World η σ) (trace : Trace η) : Duty η σ → Effect η σ → Prop
  /-- A promise is settled, and what has waited for it is due. -/
  | settles {d : Duty η σ} {p : PromiseId} {o : Outcome} {ks : List (Continuation η)}
      (hd : d.Gives p o) (hhas : w.store.Has p) (hks : w.store.state p = .pending ks) :
      Acts w trace d ⟨⟨w.store.setState p (.ofOutcome o), w.rest⟩, [.settled p o],
        Duty.invocations p ks o⟩
  /-- A continuation is made to wait. -/
  | waits {p : PromiseId} {k : Continuation η} {ks : List (Continuation η)} (hhas : w.store.Has p)
      (hks : w.store.state p = .pending ks) :
      Acts w trace (.register p k)
        ⟨⟨w.store.setState p (.pending (ks ++ [k])), w.rest⟩, [.given p k], []⟩
  /-- A continuation is due at once. -/
  | ready {p : PromiseId} {k : Continuation η} {o : Outcome} (hhas : w.store.Has p)
      (ho : w.store.outcome? p = some o) :
      Acts w trace (.register p k) ⟨w, [.given p k], [.invoke ⟨p, (trace.givens p).length⟩ k o]⟩
  | calls {ticket : Ticket} {k : Continuation η} {o : Outcome} {duties : List (Duty η σ)}
      (hduties : ∀ e ∈ duties, e.ticket? = none) :
      Acts w trace (.invoke ticket k o) ⟨w, [.invoked ticket k o], duties⟩
  | quiet {d : Duty η σ} {effect : Effect η σ} (h : Quiet w d effect) : Acts w trace d effect

theorem Duty.acts (h : d.act handle w trace = some effect) : Acts w trace d effect := by
  cases d with
  | perform r target => exact .quiet (Effect.perform_quiet h)
  | fulfil p o =>
    rcases act_fulfil h with ⟨o', hgives, hsettle⟩ | ⟨q, rfl, hq, rfl⟩
    · unfold Effect.settle at hsettle
      split at hsettle
      · rename_i hhas
        obtain rfl := Option.some.inj hsettle
        rcases Store.settle_cases p o' w.store with ⟨ks, hks, hs⟩ | ⟨o₁, ho₁, hs⟩
        · have hpending : w.store.isPending p = true := by rw [Store.isPending, hks]; rfl
          rw [hs, hpending]
          exact .settles hgives hhas hks
        · have hsettled : w.store.isPending p = false := by
            rw [Store.isPending, ho₁]
            cases o₁ <;> rfl
          rw [hs, hsettled]
          exact .quiet ⟨fun _ => rfl, fun _ hp => hp, nofun, rfl, nofun, nofun⟩
      · cases hsettle
    · exact .quiet ⟨fun _ => rfl, fun _ hp => hp, nofun, rfl, by simp [ticket?], nofun⟩
  | register p k =>
    change Effect.register w trace p k = some effect at h
    unfold Effect.register at h
    split at h
    · rename_i hhas
      obtain rfl := Option.some.inj h
      rcases Store.register_cases p k w.store with ⟨ks, hks, hs⟩ | ⟨o, ho, hs⟩
      · rw [hs]
        exact .waits hhas hks
      · rw [hs]
        exact .ready hhas (Store.outcome?_of_state ho)
    · cases h
  | watch id awaited =>
    cases awaited with
    | nil =>
      obtain rfl := Option.some.inj h
      exact .quiet ⟨fun _ => rfl, fun _ hp => hp, nofun, rfl, nofun, nofun⟩
    | cons x rest =>
      obtain rfl := Option.some.inj h
      exact .quiet ⟨fun _ => rfl, fun _ hp => hp, nofun, rfl, by simp [ticket?], nofun⟩
  | invoke ticket k o =>
    obtain rfl := Option.some.inj h
    cases k <;> exact .calls (by simp [ticket?])
  | record p id i o =>
    obtain rfl := Option.some.inj h
    refine .quiet ⟨Store.state_record id i o w.store, fun _ => Store.has_record.2, fun _ _ _ hmark => ?_,
      rfl, fun e he => ?_, fun mark hmark => ?_⟩
    · obtain ⟨_, -, heq⟩ := List.mem_map.1 hmark
      cases heq
    · obtain ⟨_, -, rfl⟩ := List.mem_map.1 he
      rfl
    · obtain ⟨_, -, rfl⟩ := List.mem_map.1 hmark
      rfl

/-! ## The trace grows -/

namespace Trace

variable (trace : Trace η) (marks : List (Mark η))

theorem givens_append (p : PromiseId) :
    Trace.givens (marks ++ trace) p = trace.givens p ++ Trace.givens marks p := by
  rw [givens, givens, givens, List.filterMap_append, List.reverse_append]

theorem settlements_append (p : PromiseId) :
    Trace.settlements (marks ++ trace) p = Trace.settlements marks p ++ trace.settlements p :=
  List.filterMap_append

theorem invocations_append :
    Trace.invocations (marks ++ trace) = Trace.invocations marks ++ trace.invocations :=
  List.filterMap_append

variable {trace marks}

theorem givens_given (trace : Trace η) (p : PromiseId) (k : Continuation η) :
    Trace.givens (.given p k :: trace) p = trace.givens p ++ [k] := by
  have hmark : Mark.given? p (.given p k) = some k := if_pos rfl
  rw [givens, List.filterMap_cons_some hmark, List.reverse_cons]
  rfl

theorem givens_given_ne {p q : PromiseId} (hq : q ≠ p) (trace : Trace η) (k : Continuation η) :
    Trace.givens (.given p k :: trace) q = trace.givens q := by
  have hmark : Mark.given? q (.given p k) = none := if_neg (Ne.symm hq)
  rw [givens, List.filterMap_cons_none hmark]
  rfl

theorem given_append (marks : List (Mark η)) {p : PromiseId} {i : Nat} {k : Continuation η}
    (h : (trace.givens p)[i]? = some k) : (Trace.givens (marks ++ trace) p)[i]? = some k := by
  rw [givens_append, List.getElem?_append_left (List.getElem?_eq_some_iff.1 h).1, h]

section

variable (h : ∀ mark ∈ marks, mark.silent = true)
include h

theorem givens_silent (p : PromiseId) : Trace.givens (marks ++ trace) p = trace.givens p := by
  have hnone : Trace.givens marks p = [] := by
    rw [givens, List.reverse_eq_nil_iff, List.filterMap_eq_nil_iff]
    intro mark hmark
    have hsilent := h mark hmark
    cases mark <;> first | rfl | cases hsilent
  rw [givens_append, hnone, List.append_nil]

theorem settlements_silent (p : PromiseId) :
    Trace.settlements (marks ++ trace) p = trace.settlements p := by
  have hnone : Trace.settlements marks p = [] := by
    rw [settlements, List.filterMap_eq_nil_iff]
    intro mark hmark
    have hsilent := h mark hmark
    cases mark <;> first | rfl | cases hsilent
  rw [settlements_append, hnone, List.nil_append]

theorem invocations_silent : Trace.invocations (marks ++ trace) = trace.invocations := by
  have hnone : Trace.invocations marks = [] := by
    rw [invocations, List.filterMap_eq_nil_iff]
    intro mark hmark
    have hsilent := h mark hmark
    cases mark <;> first | rfl | cases hsilent
  rw [invocations_append, hnone, List.nil_append]

end

end Trace

/-! ## The account of all tickets -/

/-- A continuation that is due or has been called was given to its promise, and the outcome is that of
the promise. -/
structure Store.Owes (s : Store η) (trace : Trace η) (ticket : Ticket) (k : Continuation η)
    (o : Outcome) : Prop where
  given : (trace.givens ticket.promise)[ticket.rank]? = some k
  outcome : s.outcome? ticket.promise = some o

/-- Where the continuations are, and the outcomes. -/
structure Tickets (s : Store η) (trace : Trace η) (D : Multiset (Duty η σ)) : Prop where
  waiting : ∀ p ks, s.state p = .pending ks → ks = trace.givens p
  settled : ∀ p, trace.settlements p = (s.outcome? p).toList
  due : ∀ ticket k o, .invoke ticket k o ∈ D → s.Owes trace ticket k o
  called : ∀ ticket k o, .invoked ticket k o ∈ trace → s.Owes trace ticket k o
  once : ∀ ticket, (D.filterMap Duty.ticket? + ↑trace.invocations).count ticket =
    if (s.outcome? ticket.promise).isSome ∧ ticket.rank < (trace.givens ticket.promise).length then 1
    else 0

section

variable {s : Store η} {D R : Multiset (Duty η σ)} {p : PromiseId} {k : Continuation η} {o : Outcome}
  {ks : List (Continuation η)}

theorem Duty.tickets_invocations (p : PromiseId) (ks : List (Continuation η)) (o : Outcome) :
    (Duty.invocations p ks o : List (Duty η σ)).filterMap Duty.ticket? =
      (List.range ks.length).map (Ticket.mk p) := by
  have hticket : (Duty.ticket? ∘ fun x : Continuation η × Nat => (.invoke ⟨p, x.2⟩ x.1 o : Duty η σ)) =
      some ∘ (Ticket.mk p ∘ Prod.snd) := rfl
  rw [invocations, List.filterMap_map, hticket, List.filterMap_eq_map, ← List.map_map,
    List.zipIdx_map_snd, List.range_eq_range']

/-- A promise has each rank below a bound once. -/
theorem Ticket.count_range (p : PromiseId) (n : Nat) (ticket : Ticket) :
    ((List.range n).map (Ticket.mk p)).count ticket =
      if ticket.promise = p ∧ ticket.rank < n then 1 else 0 := by
  have hnodup : ((List.range n).map (Ticket.mk p)).Nodup :=
    List.nodup_range.map fun _ _ h => (Ticket.mk.inj h).2
  have hmem : ticket ∈ (List.range n).map (Ticket.mk p) ↔ ticket.promise = p ∧ ticket.rank < n := by
    obtain ⟨q, i⟩ := ticket
    simp only [List.mem_map, List.mem_range, Ticket.mk.injEq]
    exact ⟨fun ⟨_, hi, hp, he⟩ => ⟨hp.symm, he ▸ hi⟩, fun ⟨hp, hi⟩ => ⟨i, hi, hp.symm, rfl⟩⟩
  rw [List.Nodup.count hnodup]
  simp only [hmem]

theorem Duty.mem_invocations {e : Duty η σ} (h : e ∈ Duty.invocations p ks o) :
    ∃ i k, e = .invoke ⟨p, i⟩ k o ∧ ks[i]? = some k := by
  obtain ⟨⟨k, i⟩, hmem, rfl⟩ := List.mem_map.1 h
  exact ⟨i, k, rfl, List.mem_zipIdx_iff_getElem?.1 hmem⟩

theorem Store.Owes.mono {s' : Store η} {trace' : Trace η} {ticket : Ticket}
    (h : s.Owes trace ticket k o) (hs : ∀ q o, s.outcome? q = some o → s'.outcome? q = some o)
    (hgivens : ∀ (q : PromiseId) (i : Nat) k, (trace.givens q)[i]? = some k →
      (trace'.givens q)[i]? = some k) :
    s'.Owes trace' ticket k o :=
  ⟨hgivens _ _ _ h.given, hs _ _ h.outcome⟩

theorem Duty.tickets_eq_zero {duties : List (Duty η σ)} (h : ∀ e ∈ duties, e.ticket? = none) :
    Multiset.filterMap Duty.ticket? (duties : Multiset (Duty η σ)) = 0 := by
  rw [Multiset.filterMap_coe, List.filterMap_eq_nil_iff.2 h]
  rfl

namespace Tickets

/-- A quiet step. -/
theorem quiet {effect : Effect η σ} (h : Tickets w.store trace (d ::ₘ R)) (hq : Quiet w d effect) :
    Tickets effect.world.store (effect.marks ++ trace)
      ((effect.duties : Multiset (Duty η σ)) + R) := by
  have houtcome : ∀ p, effect.world.store.outcome? p = w.store.outcome? p :=
    fun p => congrArg PromiseState.outcome? (hq.state p)
  have hgivens : ∀ p, Trace.givens (effect.marks ++ trace) p = trace.givens p :=
    Trace.givens_silent hq.marks
  have howes : ∀ ticket k o, w.store.Owes trace ticket k o →
      effect.world.store.Owes (effect.marks ++ trace) ticket k o := fun ticket k o h =>
    h.mono (fun q o ho => (houtcome q).trans ho) fun q i k hk => by rwa [hgivens]
  refine ⟨fun p ks hks => ?_, fun p => ?_, fun ticket k o hmem => ?_, fun ticket k o hmem => ?_,
    fun ticket => ?_⟩
  · rw [hgivens]
    exact h.waiting p ks ((hq.state p).symm.trans hks)
  · rw [Trace.settlements_silent hq.marks, houtcome]
    exact h.settled p
  · rcases Multiset.mem_add.1 hmem with hmem | hmem
    · cases hq.duties _ hmem
    · exact howes _ _ _ (h.due ticket k o (Multiset.mem_cons_of_mem hmem))
  · rcases List.mem_append.1 hmem with hmem | hmem
    · cases hq.marks _ hmem
    · exact howes _ _ _ (h.called ticket k o hmem)
  · have honce := h.once ticket
    rw [Multiset.filterMap_cons_none _ _ hq.ticket] at honce
    rw [Multiset.filterMap_add, Duty.tickets_eq_zero hq.duties, zero_add,
      Trace.invocations_silent hq.marks, houtcome, hgivens, honce]

/-- A promise is settled. All that it has been given is due. -/
theorem settles (h : Tickets s trace (d ::ₘ R)) (hd : d.ticket? = none) (hhas : s.Has p)
    (hks : s.state p = .pending ks) :
    Tickets (s.setState p (.ofOutcome o)) (.settled p o :: trace)
      ((Duty.invocations p ks o : List (Duty η σ)) + R : Multiset (Duty η σ)) := by
  have hnone : s.outcome? p = none := by rw [Store.outcome?, hks]; rfl
  have hself := Store.outcome?_setState_self hhas o
  have hother : ∀ q, q ≠ p → (s.setState p (.ofOutcome o)).outcome? q = s.outcome? q :=
    fun q hq => Store.outcome?_setState_ne hq
  have hgivens : ∀ q, Trace.givens (.settled p o :: trace) q = trace.givens q := fun _ => rfl
  have hold : ∀ ticket k o', s.Owes trace ticket k o' →
      (s.setState p (.ofOutcome o)).Owes (.settled p o :: trace) ticket k o' := by
    intro ticket k o' howes
    refine howes.mono (fun q o' ho' => ?_) fun _ _ _ hk => hk
    rw [hother q fun hq => by rw [hq, hnone] at ho'; cases ho']
    exact ho'
  refine ⟨fun q ks' hks' => ?_, fun q => ?_, fun ticket k o' hmem => ?_, fun ticket k o' hmem => ?_,
    fun ticket => ?_⟩
  · by_cases hq : q = p
    · rw [hq, Store.state_setState_self hhas] at hks'
      exact absurd hks' (PromiseState.ofOutcome_ne_pending o ks')
    · rw [Store.state_setState_ne hq] at hks'
      exact h.waiting q ks' hks'
  · have hsettled := h.settled q
    by_cases hq : q = p
    · subst hq
      rw [hnone] at hsettled
      rw [hself]
      have hmark : Mark.settled? q (.settled q o : Mark η) = some o := if_pos rfl
      exact (List.filterMap_cons_some hmark).trans (congrArg (o :: ·) hsettled)
    · rw [hother q hq, ← hsettled]
      exact List.filterMap_cons_none (if_neg (Ne.symm hq))
  · rcases Multiset.mem_add.1 hmem with hmem | hmem
    · obtain ⟨i, k', heq, hk⟩ := Duty.mem_invocations hmem
      cases heq
      exact ⟨(h.waiting p ks hks) ▸ hk, hself⟩
    · exact hold _ _ _ (h.due ticket k o' (Multiset.mem_cons_of_mem hmem))
  · rcases List.mem_cons.1 hmem with heq | hmem
    · cases heq
    · exact hold _ _ _ (h.called ticket k o' hmem)
  · have honce := h.once ticket
    have hinvocations : Trace.invocations (.settled p o :: trace) = trace.invocations := rfl
    rw [Multiset.filterMap_cons_none _ _ hd] at honce
    rw [Multiset.filterMap_add, Multiset.filterMap_coe, Duty.tickets_invocations, add_assoc,
      Multiset.count_add, Multiset.coe_count, Ticket.count_range, hinvocations, honce, hgivens]
    by_cases hp : ticket.promise = p
    · rw [hp, hself, hnone, ← h.waiting p ks hks]
      simp
    · rw [hother _ hp]
      simp [hp]

/-- A continuation is made to wait. -/
theorem waits (h : Tickets s trace (d ::ₘ R)) (hd : d.ticket? = none) (hhas : s.Has p)
    (hks : s.state p = .pending ks) :
    Tickets (s.setState p (.pending (ks ++ [k]))) (.given p k :: trace) R := by
  have hsame := Store.outcome?_register_eq (k := k) hks
  have hnone : s.outcome? p = none := by rw [Store.outcome?, hks]; rfl
  have hold : ∀ ticket k' o', s.Owes trace ticket k' o' →
      (s.setState p (.pending (ks ++ [k]))).Owes (.given p k :: trace) ticket k' o' :=
    fun ticket k' o' howes => howes.mono (fun q o' ho' => (hsame q).trans ho')
      fun q i k' hk' => Trace.given_append [.given p k] hk'
  refine ⟨fun q ks' hks' => ?_, fun q => (h.settled q).trans (congrArg _ (hsame q).symm),
    fun ticket k' o' hmem => hold _ _ _ (h.due ticket k' o' (Multiset.mem_cons_of_mem hmem)),
    fun ticket k' o' hmem => ?_, fun ticket => ?_⟩
  · by_cases hq : q = p
    · subst hq
      rw [Store.state_setState_self hhas] at hks'
      rw [Trace.givens_given, ← h.waiting q ks hks, PromiseState.pending.inj hks']
    · rw [Store.state_setState_ne hq] at hks'
      rw [Trace.givens_given_ne hq]
      exact h.waiting q ks' hks'
  · rcases List.mem_cons.1 hmem with heq | hmem
    · cases heq
    · exact hold _ _ _ (h.called ticket k' o' hmem)
  · have honce := h.once ticket
    rw [Multiset.filterMap_cons_none _ _ hd] at honce
    have hinvocations : Trace.invocations (.given p k :: trace) = trace.invocations := rfl
    rw [hinvocations, honce, hsame]
    by_cases hp : ticket.promise = p
    · rw [hp, hnone]
      simp
    · rw [Trace.givens_given_ne hp]

/-- A continuation is due at once. -/
theorem ready (h : Tickets s trace (d ::ₘ R)) (hd : d.ticket? = none) (ho : s.outcome? p = some o) :
    Tickets s (.given p k :: trace) (.invoke ⟨p, (trace.givens p).length⟩ k o ::ₘ R) := by
  have hold : ∀ ticket k' o', s.Owes trace ticket k' o' → s.Owes (.given p k :: trace) ticket k' o' :=
    fun ticket k' o' howes => howes.mono (fun _ _ ho' => ho')
      fun q i k' hk' => Trace.given_append [.given p k] hk'
  refine ⟨fun q ks' hks' => ?_, h.settled, fun ticket k' o' hmem => ?_, fun ticket k' o' hmem => ?_,
    fun ticket => ?_⟩
  · have hq : q ≠ p := by
      rintro rfl
      rw [Store.outcome?, hks'] at ho
      cases ho
    rw [Trace.givens_given_ne hq]
    exact h.waiting q ks' hks'
  · rcases Multiset.mem_cons.1 hmem with heq | hmem
    · cases heq
      exact ⟨by rw [Trace.givens_given]; exact List.getElem?_concat_length, ho⟩
    · exact hold _ _ _ (h.due ticket k' o' (Multiset.mem_cons_of_mem hmem))
  · rcases List.mem_cons.1 hmem with heq | hmem
    · cases heq
    · exact hold _ _ _ (h.called ticket k' o' hmem)
  · have honce := h.once ticket
    rw [Multiset.filterMap_cons_none _ _ hd] at honce
    have hinvocations : Trace.invocations (.given p k :: trace) = trace.invocations := rfl
    rw [Multiset.filterMap_cons_some Duty.ticket? _ _ rfl, hinvocations, Multiset.cons_add,
      Multiset.count_cons, honce]
    by_cases hp : ticket.promise = p
    · rw [hp, ho, Trace.givens_given, List.length_append, List.length_singleton]
      obtain ⟨q, i⟩ := ticket
      obtain rfl := hp
      simp only [Ticket.mk.injEq, true_and, Option.isSome_some]
      split <;> split <;> split <;> omega
    · rw [Trace.givens_given_ne hp, if_neg fun he => hp (congrArg Ticket.promise he), add_zero]

/-- A continuation is called. -/
theorem calls {ticket : Ticket} {duties : List (Duty η σ)}
    (h : Tickets s trace (.invoke ticket k o ::ₘ R)) (hduties : ∀ e ∈ duties, e.ticket? = none) :
    Tickets s (.invoked ticket k o :: trace) ((duties : Multiset (Duty η σ)) + R) := by
  have hold : ∀ ticket' k' o', s.Owes trace ticket' k' o' →
      s.Owes (.invoked ticket k o :: trace) ticket' k' o' := fun _ _ _ howes => ⟨howes.1, howes.2⟩
  refine ⟨h.waiting, h.settled, fun ticket' k' o' hmem => ?_, fun ticket' k' o' hmem => ?_,
    fun ticket' => ?_⟩
  · rcases Multiset.mem_add.1 hmem with hmem | hmem
    · cases hduties _ hmem
    · exact hold _ _ _ (h.due ticket' k' o' (Multiset.mem_cons_of_mem hmem))
  · rcases List.mem_cons.1 hmem with heq | hmem
    · cases heq
      exact hold _ _ _ (h.due ticket k o (Multiset.mem_cons_self ..))
    · exact hold _ _ _ (h.called ticket' k' o' hmem)
  · have honce := h.once ticket'
    have hinvocations : Trace.invocations (.invoked ticket k o :: trace) =
        ticket :: trace.invocations := rfl
    have hgivens : Trace.givens (.invoked ticket k o :: trace) ticket'.promise =
        trace.givens ticket'.promise := rfl
    rw [Multiset.filterMap_cons_some Duty.ticket? _ _ rfl, Multiset.cons_add] at honce
    rw [Multiset.filterMap_add, Duty.tickets_eq_zero hduties, zero_add, hinvocations,
      ← Multiset.cons_coe, Multiset.add_cons, hgivens, honce]

/-- The account is kept by every step. -/
theorem act {effect : Effect η σ} (h : Tickets w.store trace (d ::ₘ R))
    (hact : d.act handle w trace = some effect) :
    Tickets effect.world.store (effect.marks ++ trace)
      ((effect.duties : Multiset (Duty η σ)) + R) := by
  cases Duty.acts hact with
  | settles hd hhas hks =>
    refine h.settles ?_ hhas hks
    rcases hd with ⟨rfl, -⟩ | ⟨rfl, -⟩ <;> rfl
  | @waits p k ks hhas hks =>
    have hwaits := h.waits (k := k) rfl hhas hks
    rwa [← zero_add R] at hwaits
  | ready hhas ho => exact h.ready rfl ho
  | calls hduties => exact h.calls hduties
  | quiet hq => exact h.quiet hq

end Tickets

end

end Deferral
