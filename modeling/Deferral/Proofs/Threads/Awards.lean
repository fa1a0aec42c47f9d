import Deferral.Proofs.Threads.Interleaving

/-!
# What a gather has yielded is what its result is given

A gather that has been opened is there, with its result (`Awards.opened`). Unless a program takes the
result in its own hands, nobody but the gather gives it an outcome: a thread that is to give it one, and
the outcome that it has, come of a combined outcome that the gather has yielded. For a promise that may
be given any outcome is no result (`May.of_any`), and the one duty that is not free in this way is the
record that ends the gather (`Duty.gives_cases`).
-/

set_option autoImplicit false

namespace Deferral

variable {η σ : Type} {handle : η → Outcome → Routine η σ Outcome} {w : World η σ} {trace : Trace η}
  {d : Duty η σ} {effect : Effect η σ}

/-- Gathers and the outcomes of their results. -/
structure Awards (s : Store η) (trace : Trace η) (D : Multiset (Duty η σ)) : Prop where
  opened : ∀ (id : GatherId) operands r, .gathering (some id) operands r ∈ trace →
    ∃ g, s.gathers[id.index]? = some g ∧ g.result = r
  due : ∀ id operands r o, .gathering (some id) operands r ∈ trace → .byHand r ∉ trace →
    .fulfil r o ∈ D → .combined id o ∈ trace
  given : ∀ id operands r o, .gathering (some id) operands r ∈ trace → .byHand r ∉ trace →
    s.outcome? r = some o → .combined id o ∈ trace

section

variable {s : Store η} {t p : PromiseId} {o : Outcome} {D R : Multiset (Duty η σ)} {id : GatherId}
  {operands : List Value} {r : PromiseId}

/-- A result may not be given any outcome whatever: no operands come to a unit. -/
theorem May.of_any (h : ∀ o, May s trace t o) (hmem : .gathering (some id) operands t ∈ trace) :
    .byHand t ∈ trace :=
  (h (.ok .unit)).resolve_right fun hgives => by cases hgives.2 _ _ hmem

/-- What an operation of a program comes to give an outcome: the target, if it is the last, a promise by
hand, or one that it has just made and that is no result of a gather. -/
theorem Effect.perform_gives {f : Routine η σ Outcome} {target : Option PromiseId}
    (h : Effect.perform w target f = some effect) (hmem : .fulfil t o ∈ effect.duties) :
    t ∈ target ∨ .byHand t ∈ effect.marks ∨
      ¬w.store.Has t ∧ ∀ id operands r, .gathering (some id) operands r ∉ effect.marks := by
  cases f with
  | done answer =>
    obtain rfl := Option.some.inj h
    obtain ⟨t', ht', heq⟩ := List.mem_map.1 hmem
    cases heq
    exact .inl (Option.mem_toList.1 ht')
  | panic => cases h
  | onComplete q k next =>
    cases k with
    | notify h' =>
      obtain rfl := Option.some.inj h
      simp at hmem
    | _ => cases h
  | fulfil q o' next =>
    obtain rfl := Option.some.inj h
    simp only [List.mem_cons, Duty.fulfil.injEq, reduceCtorEq, List.not_mem_nil, or_false] at hmem
    exact .inr (.inl (by simp [hmem.1]))
  | settled o' next =>
    obtain rfl := Option.some.inj h
    simp only [List.mem_cons, Duty.fulfil.injEq, reduceCtorEq, List.not_mem_nil, or_false] at hmem
    exact .inr (.inr ⟨hmem.1 ▸ w.store.not_has_fresh, fun _ _ _ => List.not_mem_nil⟩)
  | all operands next =>
    unfold Effect.perform at h
    dsimp only at h
    split at h
    · obtain rfl := Option.some.inj h
      simp only [List.mem_cons, Duty.fulfil.injEq, reduceCtorEq, List.not_mem_nil, or_false] at hmem
      exact .inr (.inr ⟨hmem.1 ▸ w.store.not_has_fresh, fun _ _ _ => by simp⟩)
    · obtain rfl := Option.some.inj h
      simp at hmem
  | _ =>
    obtain rfl := Option.some.inj h
    simp at hmem

/-- Who comes to give a promise an outcome: the record that ends a gather, someone who may give it any,
a program by hand, or whoever has just made it. -/
theorem Duty.gives_cases (hact : d.act handle w trace = some effect) (hd : d.Sound w.store trace)
    (hmem : .fulfil t o ∈ effect.duties) :
    (∃ p id i o', d = .record p id i o' ∧ (w.store.record id i o').1 = some (t, o)) ∨
      (∀ o', May w.store trace t o') ∨ .byHand t ∈ effect.marks ∨
      ¬w.store.Has t ∧ ∀ id operands r, .gathering (some id) operands r ∉ effect.marks := by
  cases d with
  | perform f target => exact .inr ((Effect.perform_gives hact hmem).imp_left (hd t))
  | fulfil q o' =>
    rcases Duty.act_fulfil hact with ⟨o₁, -, hsettle⟩ | ⟨q', rfl, -, rfl⟩
    · unfold Effect.settle at hsettle
      split at hsettle
      · obtain rfl := Option.some.inj hsettle
        obtain ⟨_, _, heq, -⟩ := Duty.mem_invocations hmem
        cases heq
      · cases hsettle
    · simp at hmem
  | register q k =>
    change Effect.register w trace q k = some effect at hact
    unfold Effect.register at hact
    split at hact
    · obtain rfl := Option.some.inj hact
      simp at hmem
    · cases hact
  | watch id awaited =>
    cases awaited <;> obtain rfl := Option.some.inj hact <;> simp at hmem
  | invoke ticket k o' =>
    obtain rfl := Option.some.inj hact
    cases k with
    | adopt t' =>
      obtain ⟨rfl, rfl⟩ := Duty.fulfil.inj (List.mem_singleton.1 hmem)
      exact .inr (.inl hd)
    | _ => simp at hmem
  | record q id i o' =>
    obtain rfl := Option.some.inj hact
    obtain ⟨f, hf, heq⟩ := List.mem_map.1 hmem
    cases heq
    exact .inl ⟨q, id, i, o', rfl, Option.mem_toList.1 hf⟩

/-- Whatever is put into whichever gather, a gather keeps its result. -/
theorem Store.result_record {g : Gather} (hg : s.gathers[id.index]? = some g) (id' : GatherId) (i : Nat)
    (o : Outcome) :
    ∃ g', (s.record id' i o).2.gathers[id.index]? = some g' ∧ g'.result = g.result := by
  rcases record_cases id' i o s with ⟨-, hrecord⟩ | ⟨g', hg', -⟩
  · rw [hrecord]
    exact ⟨g, hg, rfl⟩
  · rw [gathers_record hg']
    split
    · rename_i hid
      subst hid
      obtain rfl := Option.some.inj (hg.symm.trans hg')
      exact ⟨_, rfl, g.result_record i o⟩
    · exact ⟨g, hg, rfl⟩

namespace Awards

/-- Gathers stay, and keep their results. -/
theorem opened_act (h : Awards w.store trace D) (hact : d.act handle w trace = some effect)
    (hmem : .gathering (some id) operands r ∈ effect.marks ++ trace) :
    ∃ g, effect.world.store.gathers[id.index]? = some g ∧ g.result = r := by
  cases Duty.deals hact with
  | @opens operands' next target hplaces =>
    dsimp only
    rw [Store.gathers_opened]
    rcases List.mem_cons.1 hmem with heq | hold
    · cases heq
      exact ⟨_, if_pos rfl, rfl⟩
    · obtain ⟨g, hg, hresult⟩ := h.opened id operands r hold
      rw [if_neg]
      · exact ⟨g, hg, hresult⟩
      · rintro rfl
        exact absurd (Array.getElem?_eq_some_iff.1 hg).1 (Nat.lt_irrefl _)
  | @records q id' i o' =>
    have hold : .gathering (some id) operands r ∈ trace := by
      refine (List.mem_append.1 hmem).resolve_left fun hnew => ?_
      obtain ⟨_, -, heq⟩ := List.mem_map.1 hnew
      cases heq
    obtain ⟨g, hg, hresult⟩ := h.opened id operands r hold
    obtain ⟨g', hg', hsame⟩ := Store.result_record hg id' i o'
    exact ⟨g', hg', hsame.trans hresult⟩
  | apart hd =>
    rw [hd.gathers]
    rcases List.mem_append.1 hmem with hnew | hold
    · cases hd.marks _ hnew
    · exact h.opened id operands r hold

section

variable (he : Entitled w.store trace (d ::ₘ R)) (hact : d.act handle w trace = some effect)
  (hhand : .byHand r ∉ effect.marks ++ trace)

include hhand in
/-- A promise that is not there yet may be given nothing. -/
theorem not_may_of_new (hnew : ¬w.store.Has r) (o : Outcome) : ¬May w.store trace r o := fun hmay =>
  hnew (hmay.resolve_left fun h => hhand (List.mem_append_right _ h)).1

include he hact hhand

/-- Who comes to give an outcome to the result of a gather has just put the last outcome into it. -/
theorem combined_of_gives (hs : Shares w.store trace (d ::ₘ R))
    (hold : .gathering (some id) operands r ∈ trace) (hmem : .fulfil r o ∈ effect.duties) :
    .combined id o ∈ effect.marks := by
  rcases Duty.gives_cases hact (he.duties d (Multiset.mem_cons_self ..)) hmem with
    ⟨p, id', i, o', rfl, hrecord⟩ | hany | hmark | ⟨hnew, -⟩
  · obtain ⟨operands', hmem', -⟩ := hs.records.1 (r, o) hrecord
    obtain rfl := Option.some.inj (hs.unique _ _ _ _ _ hold hmem').1
    obtain rfl := Option.some.inj hact
    exact List.mem_map.2 ⟨(r, o), Option.mem_toList.2 hrecord, rfl⟩
  · exact absurd (List.mem_append_right _ (May.of_any hany hold)) hhand
  · exact absurd (List.mem_append_left _ hmark) hhand
  · exact absurd (hs.made _ _ _ hold) hnew

/-- Nobody is to give an outcome to the result of a gather that is just being opened. -/
theorem not_due_of_new (hs : Shares w.store trace (d ::ₘ R)) (hnew : ¬w.store.Has r)
    (hmark : .gathering (some id) operands r ∈ effect.marks) :
    .fulfil r o ∉ (effect.duties : Multiset (Duty η σ)) + R := by
  have hmay := not_may_of_new hhand hnew
  intro hdue
  rcases Multiset.mem_add.1 hdue with hdue | hdue
  · rcases Duty.gives_cases hact (he.duties d (Multiset.mem_cons_self ..)) hdue with
      ⟨p, id', i, o', rfl, hrecord⟩ | hany | hmark' | ⟨-, hnone⟩
    · obtain ⟨operands', hmem', -⟩ := hs.records.1 (r, o) hrecord
      exact hnew (hs.made _ _ _ hmem')
    · exact hmay _ (hany o)
    · exact hhand (List.mem_append_left _ hmark')
    · exact hnone _ _ _ hmark
  · exact hmay o (he.duties _ (Multiset.mem_cons_of_mem hdue))

/-- A result has no outcome when its gather has just been opened. -/
theorem not_given_of_new (hnew : ¬w.store.Has r) : effect.world.store.outcome? r ≠ some o := by
  have hmay := not_may_of_new hhand hnew
  intro ho
  rcases (Duty.acts hact).outcome_cases ho with hold | hgives
  · exact hmay o (he.outcomes r o hold)
  · exact hmay o (hgives.may (he.duties d (Multiset.mem_cons_self ..)))

end

/-- Who has given a promise its outcome was to give it just that, unless it may be given any. -/
theorem due_of_gives (hd : d.Sound w.store trace) (hgives : d.Gives r o)
    (hold : .gathering (some id) operands r ∈ trace) (hhand : .byHand r ∉ trace) : d = .fulfil r o := by
  rcases hgives with ⟨rfl, -⟩ | ⟨rfl, -⟩
  · rfl
  · exact absurd (May.of_any (May.of_promise hd) hold) hhand

/-- What gathers have yielded is kept account of by every step. -/
theorem act (h : Awards w.store trace (d ::ₘ R)) (hs : Shares w.store trace (d ::ₘ R))
    (he : Entitled w.store trace (d ::ₘ R)) (hact : d.act handle w trace = some effect) :
    Awards effect.world.store (effect.marks ++ trace) ((effect.duties : Multiset (Duty η σ)) + R) := by
  have hacts := Duty.acts hact
  have hnew : ∀ {id operands r}, effect.marks ++ trace = .gathering (some id) operands r :: trace →
      .gathering (some id) operands r ∈ effect.marks := fun {id operands r} htrace => by
    have hmarks : effect.marks = [.gathering (some id) operands r] := List.append_cancel_right htrace
    exact hmarks ▸ .head _
  refine ⟨fun id operands r => h.opened_act hact, fun id operands r o hmem hhand hdue => ?_,
    fun id operands r o hmem hhand ho => ?_⟩
  · rcases hacts.extends.results _ _ _ hmem with hold | ⟨htrace, hhas, -⟩
    · rcases Multiset.mem_add.1 hdue with hdue | hdue
      · exact List.mem_append_left _ (combined_of_gives he hact hhand hs hold hdue)
      · exact List.mem_append_right _ (h.due id operands r o hold
          (fun h => hhand (List.mem_append_right _ h)) (Multiset.mem_cons_of_mem hdue))
    · exact absurd hdue (not_due_of_new he hact hhand hs hhas (hnew htrace))
  · rcases hacts.extends.results _ _ _ hmem with hold | ⟨htrace, hhas, -⟩
    · have hhand' : .byHand r ∉ trace := fun h => hhand (List.mem_append_right _ h)
      refine List.mem_append_right _ ?_
      rcases hacts.outcome_cases ho with hbefore | hgives
      · exact h.given id operands r o hold hhand' hbefore
      · obtain rfl := due_of_gives (he.duties d (Multiset.mem_cons_self ..)) hgives hold hhand'
        exact h.due id operands r o hold hhand' (Multiset.mem_cons_self ..)
    · exact absurd ho (not_given_of_new he hact hhand hhas)

end Awards

end

namespace Scene

variable {S S' : Scene η σ}

theorem awards_start (shared : Nat) (rest : σ) (programs : List (Routine η σ Outcome)) :
    Awards (start shared rest programs).world.store (start shared rest programs).trace
      (start shared rest programs).duties :=
  ⟨nofun, nofun, nofun⟩

/-- In every scene that can be reached, what results have been given came of their gathers. -/
theorem Accounts.awards_steps (h : S.Accounts) (ha : Awards S.world.store S.trace S.duties)
    (hsteps : Relation.ReflTransGen (Step handle) S S') :
    Awards S'.world.store S'.trace S'.duties := by
  induction hsteps with
  | refl => exact ha
  | @tail S₁ S₂ hbefore hstep ih =>
    have haccounts := h.steps hbefore
    obtain ⟨d, others, effect, hact, hduties, hworld, htrace, hafter⟩ := hstep.act
    have hshares := haccounts.shares
    have hentitled := haccounts.entitled
    rw [hduties] at ih hshares hentitled
    rw [hworld, htrace, hafter]
    exact ih.act hshares hentitled hact

end Scene

end Deferral
