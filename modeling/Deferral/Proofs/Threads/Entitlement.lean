import Deferral.Proofs.Threads.Gathers

/-!
# Who settles a result

The promise for combined operands is new when the operation begins, and nothing but the operation is to
settle it, unless a program takes it in its own hands. `May` says which outcomes a promise may be given:
any at all, if it is no such result, and otherwise only what has come of the operands. What is under
way to settle promises, in the hands of threads and in continuations that wait, keeps to that
(`Entitled`), and so do the outcomes.
-/

set_option autoImplicit false

namespace Deferral

variable {η σ : Type} {handle : η → Outcome → Routine η σ Outcome} {w : World η σ} {trace : Trace η}
  {d : Duty η σ} {effect : Effect η σ}

/-- A promise may be given an outcome: it is in the hands of a program, or the outcome is what has come
of the operands whose result it is, if it is one. -/
def May (s : Store η) (trace : Trace η) (t : PromiseId) (o : Outcome) : Prop :=
  .byHand t ∈ trace ∨ s.Has t ∧ ∀ id operands, .gathering id operands t ∈ trace → s.Gives operands o

/-- The promise that a continuation settles may be given any outcome. -/
def Continuation.Sound (s : Store η) (trace : Trace η) : Continuation η → Prop
  | .adopt t => ∀ o, May s trace t o
  | .derive t _ => ∀ o, May s trace t o
  | _ => True

/-- What a thread has to do gives promises only what they may be given. -/
def Duty.Sound (s : Store η) (trace : Trace η) : Duty η σ → Prop
  | .perform _ target => ∀ t ∈ target, ∀ o, May s trace t o
  | .fulfil t o => May s trace t o
  | .register _ k => k.Sound s trace
  | .invoke _ k _ => k.Sound s trace
  | _ => True

/-- No result is given anything but what has come of its operands. -/
structure Entitled (s : Store η) (trace : Trace η) (D : Multiset (Duty η σ)) : Prop where
  outcomes : ∀ p o, s.outcome? p = some o → May s trace p o
  waits : ∀ p ks, s.state p = .pending ks → ∀ k ∈ ks, k.Sound s trace
  duties : ∀ d ∈ D, d.Sound s trace

section

variable {s s' : Store η} {trace' : Trace η} {t p : PromiseId} {o : Outcome} {k : Continuation η}
  {D R : Multiset (Duty η σ)}

theorem May.mono (h : May s trace t o) (hx : Extends s trace s' trace') : May s' trace' t o := by
  rcases h with hhand | ⟨hhas, hgives⟩
  · exact .inl (hx.marks _ hhand)
  · refine .inr ⟨hx.has t hhas, fun id operands hmem => ?_⟩
    rcases hx.results id operands t hmem with hold | ⟨-, hnew, -⟩
    · exact (hgives id operands hold).mono hx.outcome
    · exact absurd hhas hnew

/-- What may be given a promise is no result, for nothing comes of operands but a concrete outcome. -/
theorem May.of_promise {q : PromiseId} (h : May s trace t (.ok (.promise q))) (o : Outcome) :
    May s trace t o :=
  h.imp_right fun ⟨hhas, hgives⟩ => ⟨hhas, fun id operands hmem =>
    absurd rfl ((hgives id operands hmem).concrete q)⟩

/-- A promise that is no result may be given any outcome. -/
theorem May.of_new (hhas : s'.Has t) (hx : Extends s trace s' trace')
    (hmade : ∀ id operands r, .gathering id operands r ∈ trace → s.Has r) (ht : ¬s.Has t)
    (hnone : ∀ id operands, trace' ≠ .gathering id operands t :: trace) (o : Outcome) :
    May s' trace' t o := by
  refine .inr ⟨hhas, fun id operands hmem => ?_⟩
  rcases hx.results id operands t hmem with hold | ⟨htrace, -⟩
  · exact absurd (hmade id operands t hold) ht
  · exact absurd htrace (hnone id operands)

theorem Continuation.Sound.mono (h : k.Sound s trace) (hx : Extends s trace s' trace') :
    k.Sound s' trace' := by
  cases k with
  | adopt t => exact fun o => (h o).mono hx
  | derive t h' => exact fun o => (h o).mono hx
  | gather id i => trivial
  | notify h' => trivial

theorem Duty.Sound.mono (h : d.Sound s trace) (hx : Extends s trace s' trace') : d.Sound s' trace' := by
  cases d with
  | perform r target => exact fun t ht o => (h t ht o).mono hx
  | fulfil t o => exact May.mono h hx
  | register p k => exact Continuation.Sound.mono h hx
  | watch id awaited => trivial
  | invoke ticket k o => exact Continuation.Sound.mono h hx
  | record p id i o => trivial

/-- A promise is given what it is settled with. -/
theorem Duty.Gives.may (h : d.Gives p o) (hd : d.Sound s trace) : May s trace p o := by
  rcases h with ⟨rfl, -⟩ | ⟨rfl, -⟩
  · exact hd
  · exact May.of_promise hd o

theorem Acts.outcome_cases (h : Acts w trace d effect) (ho : effect.world.store.outcome? p = some o) :
    w.store.outcome? p = some o ∨ d.Gives p o := by
  cases h with
  | @settles d q o' ks hd hhas hks =>
    by_cases hp : p = q
    · subst hp
      obtain rfl := Option.some.inj ((Store.outcome?_setState_self hhas o').symm.trans ho)
      exact .inr hd
    · exact .inl ((Store.outcome?_setState_ne hp).symm.trans ho)
  | waits hhas hks => exact .inl ((Store.outcome?_register_eq hks p).symm.trans ho)
  | ready => exact .inl ho
  | calls => exact .inl ho
  | quiet h =>
    refine .inl ?_
    rw [Store.outcome?, ← h.state]
    exact ho

theorem Acts.waits_cases {ks : List (Continuation η)} (h : Acts w trace d effect)
    (hks : effect.world.store.state p = .pending ks) (hk : k ∈ ks) :
    (∃ ks', w.store.state p = .pending ks' ∧ k ∈ ks') ∨ d = .register p k := by
  cases h with
  | @settles d q o' ks' hd hhas hks' =>
    by_cases hp : p = q
    · subst hp
      exact absurd ((Store.state_setState_self hhas).symm.trans hks)
        (PromiseState.ofOutcome_ne_pending o' ks)
    · exact .inl ⟨ks, (Store.state_setState_ne hp).symm.trans hks, hk⟩
  | @waits q k' ks' hhas hks' =>
    by_cases hp : p = q
    · subst hp
      obtain rfl := PromiseState.pending.inj ((Store.state_setState_self hhas).symm.trans hks)
      rcases List.mem_append.1 hk with hk | hk
      · exact .inl ⟨ks', hks', hk⟩
      · obtain rfl := List.mem_singleton.1 hk
        exact .inr rfl
    · exact .inl ⟨ks, (Store.state_setState_ne hp).symm.trans hks, hk⟩
  | ready => exact .inl ⟨ks, hks, hk⟩
  | calls => exact .inl ⟨ks, hks, hk⟩
  | quiet h => exact .inl ⟨ks, (h.state p).symm.trans hks, hk⟩

/-! ## What is left of a duty -/

section

variable (hmade : ∀ id operands r, .gathering id operands r ∈ trace → w.store.Has r)
include hmade

theorem Effect.perform_sound {r : Routine η σ Outcome} {target : Option PromiseId}
    (h : Effect.perform w target r = some effect) (ht : ∀ t ∈ target, ∀ o, May w.store trace t o) :
    ∀ e ∈ effect.duties, e.Sound effect.world.store (effect.marks ++ trace) := by
  have hx := (Acts.quiet (Effect.perform_quiet h) : Acts w trace _ effect).extends
  have htarget : ∀ t ∈ target, ∀ o, May effect.world.store (effect.marks ++ trace) t o :=
    fun t hmem o => (ht t hmem o).mono hx
  have hhas : w.store.fresh.2.Has w.store.fresh.1 := Store.has_fresh.2 (.inr rfl)
  cases r with
  | done answer =>
    obtain rfl := Option.some.inj h
    intro e he
    obtain ⟨t, hmem, rfl⟩ := List.mem_map.1 he
    exact htarget t (Option.mem_toList.1 hmem) answer
  | panic => cases h
  | onComplete p k next =>
    cases k with
    | notify h' =>
      obtain rfl := Option.some.inj h
      exact List.forall_mem_cons.2 ⟨trivial, List.forall_mem_singleton.2 htarget⟩
    | _ => cases h
  | fulfil p o next =>
    obtain rfl := Option.some.inj h
    exact List.forall_mem_cons.2 ⟨.inl (.head _), List.forall_mem_singleton.2 htarget⟩
  | settled o next =>
    obtain rfl := Option.some.inj h
    refine List.forall_mem_cons.2 ⟨?_, List.forall_mem_singleton.2 htarget⟩
    exact May.of_new hhas hx hmade w.store.not_has_fresh (fun _ _ h => List.cons_ne_self _ _ h.symm) o
  | derive p h' next =>
    obtain rfl := Option.some.inj h
    refine List.forall_mem_cons.2 ⟨fun o => ?_, List.forall_mem_singleton.2 htarget⟩
    exact May.of_new hhas hx hmade w.store.not_has_fresh (fun _ _ h => List.cons_ne_self _ _ h.symm) o
  | all operands next =>
    unfold Effect.perform at h
    dsimp only at h
    split at h
    · rename_i hplaces
      obtain rfl := Option.some.inj h
      refine List.forall_mem_cons.2 ⟨.inr ⟨hhas, fun id operands' hmem => ?_⟩,
        List.forall_mem_singleton.2 htarget⟩
      rcases hx.results id operands' _ hmem with hold | ⟨htrace, -⟩
      · exact absurd (hmade id operands' _ hold) w.store.not_has_fresh
      · cases htrace
        exact Store.gives_of_places hplaces
    · obtain rfl := Option.some.inj h
      exact List.forall_mem_cons.2 ⟨trivial, List.forall_mem_singleton.2 htarget⟩
  | _ =>
    obtain rfl := Option.some.inj h
    exact List.forall_mem_singleton.2 htarget

end

namespace Entitled

/-- What is left of a duty is sound. -/
theorem duties_act (h : Entitled w.store trace (d ::ₘ R)) (hs : Shares w.store trace (d ::ₘ R))
    (hact : d.act handle w trace = some effect) :
    ∀ e ∈ effect.duties, e.Sound effect.world.store (effect.marks ++ trace) := by
  have hd := h.duties d (Multiset.mem_cons_self ..)
  have hx := (Duty.acts hact).extends
  cases d with
  | perform r target => exact Effect.perform_sound hs.made hact hd
  | fulfil p o =>
    rcases Duty.act_fulfil hact with ⟨o', hgives, hsettle⟩ | ⟨q, rfl, hq, rfl⟩
    · unfold Effect.settle at hsettle
      split at hsettle
      · obtain rfl := Option.some.inj hsettle
        intro e he
        obtain ⟨i, k, rfl, hk⟩ := Duty.mem_invocations he
        rcases Store.settle_cases p o' w.store with ⟨ks, hks, hs⟩ | ⟨o₁, ho₁, hs⟩
        · rw [hs] at hk
          exact (h.waits p ks hks k (List.mem_of_getElem? hk)).mono hx
        · rw [hs] at hk
          cases hk
      · cases hsettle
    · exact List.forall_mem_singleton.2 fun o => (May.of_promise hd o).mono hx
  | register p k =>
    change Effect.register w trace p k = some effect at hact
    unfold Effect.register at hact
    split at hact
    · obtain rfl := Option.some.inj hact
      intro e he
      obtain ⟨o, -, rfl⟩ := List.mem_map.1 he
      exact Continuation.Sound.mono hd hx
    · cases hact
  | watch id awaited =>
    cases awaited with
    | nil =>
      obtain rfl := Option.some.inj hact
      exact nofun
    | cons x rest =>
      obtain rfl := Option.some.inj hact
      exact List.forall_mem_cons.2 ⟨trivial, List.forall_mem_singleton.2 trivial⟩
  | invoke ticket k o =>
    obtain rfl := Option.some.inj hact
    cases k with
    | adopt t => exact List.forall_mem_singleton.2 ((hd o).mono hx)
    | derive t h' =>
      refine List.forall_mem_singleton.2 fun t' ht' o' => ?_
      cases ht'
      exact (hd o').mono hx
    | gather id i => exact List.forall_mem_singleton.2 trivial
    | notify h' => exact List.forall_mem_singleton.2 nofun
  | record p id i o =>
    obtain rfl := Option.some.inj hact
    intro e he
    obtain ⟨f, hf, rfl⟩ := List.mem_map.1 he
    obtain ⟨operands, hmem, hgives⟩ := hs.records.1 f (Option.mem_toList.1 hf)
    have hmay : May w.store trace f.1 f.2 := by
      refine .inr ⟨hs.made _ _ _ hmem, fun id' operands' hmem' => ?_⟩
      obtain ⟨-, rfl⟩ := hs.unique _ _ _ _ _ hmem hmem'
      exact hgives
    exact hmay.mono hx

/-- What is under way is kept sound by every step. -/
theorem act (h : Entitled w.store trace (d ::ₘ R)) (hs : Shares w.store trace (d ::ₘ R))
    (hact : d.act handle w trace = some effect) :
    Entitled effect.world.store (effect.marks ++ trace)
      ((effect.duties : Multiset (Duty η σ)) + R) := by
  have hd := h.duties d (Multiset.mem_cons_self ..)
  have hacts := Duty.acts hact
  have hx := hacts.extends
  refine ⟨fun p o ho => ?_, fun p ks hks k hk => ?_, fun e he => ?_⟩
  · rcases hacts.outcome_cases ho with hold | hgives
    · exact (h.outcomes p o hold).mono hx
    · exact (hgives.may hd).mono hx
  · rcases hacts.waits_cases hks hk with ⟨ks', hks', hk⟩ | rfl
    · exact (h.waits p ks' hks' k hk).mono hx
    · exact Continuation.Sound.mono hd hx
  · rcases Multiset.mem_add.1 he with he | he
    · exact h.duties_act hs hact e he
    · exact (h.duties e (Multiset.mem_cons_of_mem he)).mono hx

end Entitled

end

end Deferral
