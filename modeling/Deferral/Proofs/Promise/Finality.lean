import Deferral.Proofs.Promise.Settlement

/-!
# The first settlement of a promise is final

Giving an outcome to a promise that is settled makes no difference to anything that happens later. It is
not that nothing is done: if the outcome is another promise that is pending, a link is left there by
which the settled promise is to adopt what comes of it. Such links, of which the run without the call
has none, are what two worlds can differ in that are `Congruent`, and they are run for nothing. So
traces are compared `besides` what happens to them.

`Repeats p` relates a routine to one that makes further calls of this kind, wherever it knows that the
promise `p` is settled: because it has itself given `p` an outcome that settles it, or because it has
looked. Calls may be added on either side and in handlers too, those that run while the continuations
of `p` are being run included. `later_fulfilment_ignored` says that the two runs come to the same end.

An outcome that is another promise, and pending, does not settle `p`, and a later call is not ignored
then: `adoption_overtaken`.
-/

set_option autoImplicit false

namespace Deferral

variable {η σ α β : Type} {p : PromiseId}

/-! ## What does not count -/

/-- The continuation is the link by which a promise adopts an outcome. -/
def Continuation.isAdoption (p : PromiseId) : Continuation η → Bool
  | .adopt target => target == p
  | _ => false

/-- The links among continuations are left out. -/
def Continuation.besides (p : PromiseId) (ks : List (Continuation η)) : List (Continuation η) :=
  ks.filter fun k => !k.isAdoption p

/-- The event is about a link by which a promise adopts an outcome. -/
def Event.isAdoption (p : PromiseId) : Event η → Bool
  | .stage _ (.registered k) => k.isAdoption p
  | .stage _ (.invoked k _) => k.isAdoption p
  | .stage _ (.answered k _) => k.isAdoption p
  | _ => false

/-- A trace without what happens to such links. -/
def Event.besides (p : PromiseId) (trace : List (Event η)) : List (Event η) :=
  trace.filter fun e => !e.isAdoption p

theorem Continuation.isAdoption_iff {k : Continuation η} : k.isAdoption p = true ↔ k = .adopt p := by
  cases k <;> simp [isAdoption]

@[simp] theorem Continuation.besides_adopt (ks : List (Continuation η)) :
    besides p (.adopt p :: ks) = besides p ks := by
  simp [besides, isAdoption]

theorem Continuation.besides_cons {k : Continuation η} (h : k.isAdoption p = false)
    (ks : List (Continuation η)) : besides p (k :: ks) = k :: besides p ks := by
  simp [besides, h]

theorem Continuation.besides_append (ks ls : List (Continuation η)) :
    besides p (ks ++ ls) = besides p ks ++ besides p ls := List.filter_append ..

theorem Event.besides_append (t u : List (Event η)) :
    besides p (t ++ u) = besides p t ++ besides p u := List.filter_append ..

/-! ## Worlds that differ in links only -/

/-- The promise has an outcome. -/
def World.Settled (p : PromiseId) (w : World η σ) : Prop := ∃ o, w.store.state p = .ofOutcome o

/-- The worlds are the same apart from links by which `p` is to adopt an outcome, and there are no
others as long as `p` is pending. -/
structure Congruent (p : PromiseId) (w w' : World η σ) : Prop where
  rest : w.rest = w'.rest
  gathers : w.store.gathers = w'.store.gathers
  size : w.store.promises.size = w'.store.promises.size
  state : ∀ q, w.store.state q = w'.store.state q ∨
    ∃ ks ks', w.store.state q = .pending ks ∧ w'.store.state q = .pending ks' ∧
      Continuation.besides p ks = Continuation.besides p ks'
  flat : w.store.Flat
  has : w.store.Has p
  pending : w = w' ∨ w.Settled p

namespace Congruent

variable {w w' : World η σ}

theorem refl (hflat : w.store.Flat) (hp : w.store.Has p) : Congruent p w w :=
  ⟨rfl, rfl, rfl, fun _ => .inl rfl, hflat, hp, .inl rfl⟩

theorem of_outcome (h : Congruent p w w') {q : PromiseId} {o : Outcome}
    (ho : w.store.state q = .ofOutcome o) : w'.store.state q = .ofOutcome o := by
  rcases h.state q with heq | ⟨ks, _, hks, _, _⟩
  · rw [← heq, ho]
  · exact absurd (ho.symm.trans hks) (PromiseState.ofOutcome_ne_pending o ks)

theorem of_pending (h : Congruent p w w') {q : PromiseId} {ks : List (Continuation η)}
    (hks : w.store.state q = .pending ks) : ∃ ks', w'.store.state q = .pending ks' ∧
      Continuation.besides p ks = Continuation.besides p ks' := by
  rcases h.state q with heq | ⟨ks₁, ks', hks₁, hks', hbesides⟩
  · exact ⟨ks, heq ▸ hks, rfl⟩
  · obtain rfl := PromiseState.pending.inj (hks.symm.trans hks₁)
    exact ⟨ks', hks', hbesides⟩

theorem settled (h : Congruent p w w') (hp : w.Settled p) : w'.Settled p :=
  hp.imp fun _ => h.of_outcome

theorem symm (h : Congruent p w w') : Congruent p w' w := by
  refine ⟨h.rest.symm, h.gathers.symm, h.size.symm, fun q => ?_, fun q o ho => ?_, ?_, ?_⟩
  · rcases h.state q with heq | ⟨ks, ks', hks, hks', hbesides⟩
    · exact .inl heq.symm
    · exact .inr ⟨ks', ks, hks', hks, hbesides.symm⟩
  · rcases h.state q with heq | ⟨_, ks', _, hks', _⟩
    · exact h.flat q o (heq.trans ho)
    · exact absurd (ho.symm.trans hks') (PromiseState.ofOutcome_ne_pending o ks')
  · have hp := h.has
    rw [Store.Has] at hp ⊢
    rwa [← h.size]
  · rcases h.pending with heq | hp
    · exact .inl heq.symm
    · exact .inr (h.settled hp)

theorem outcome? (h : Congruent p w w') (q : PromiseId) :
    w.store.outcome? q = w'.store.outcome? q := by
  rcases h.state q with heq | ⟨ks, ks', hks, hks', _⟩
  · rw [Store.outcome?, Store.outcome?, heq]
  · rw [Store.outcome?, Store.outcome?, hks, hks']
    rfl

/-- The state of a pending promise is changed on both sides. -/
theorem setState (h : Congruent p w w') {q : PromiseId} {ks : List (Continuation η)}
    (hq : w.store.state q = .pending ks) {x x' : PromiseState η}
    (hx : x = x' ∨ w.Settled p ∧ ∃ ls ls', x = .pending ls ∧ x' = .pending ls' ∧
      Continuation.besides p ls = Continuation.besides p ls')
    (hflat : ∀ o, x = .ofOutcome o → Concrete o) :
    Congruent p { w with store := w.store.setState q x }
      { w' with store := w'.store.setState q x' } := by
  have hsize : ∀ (s : Store η) (y : PromiseState η),
      (s.setState q y).promises.size = s.promises.size := by simp [Store.setState]
  refine ⟨h.rest, h.gathers, ?_, fun r => ?_, h.flat.setState hflat, Store.has_setState.2 h.has, ?_⟩
  · rw [hsize, hsize, h.size]
  · by_cases hr : r = q
    · subst hr
      by_cases hhas : w.store.Has r
      · have hhas' : w'.store.Has r := by
          rw [Store.Has] at hhas ⊢
          rwa [← h.size]
        rw [Store.state_setState_self hhas, Store.state_setState_self hhas']
        exact hx.imp id And.right
      · have hhas' : ¬w'.store.Has r := by
          rw [Store.Has] at hhas ⊢
          rwa [← h.size]
        rw [Store.state_of_not_has (mt Store.has_setState.1 hhas),
          Store.state_of_not_has (mt Store.has_setState.1 hhas')]
        exact .inl rfl
    · rw [Store.state_setState_ne hr, Store.state_setState_ne hr]
      exact h.state r
  · have hkept : w.Settled p →
        World.Settled p { w with store := w.store.setState q x } := by
      rintro ⟨o, ho⟩
      have hne : p ≠ q := by
        rintro rfl
        exact PromiseState.ofOutcome_ne_pending o ks (ho.symm.trans hq)
      exact ⟨o, by rw [Store.state_setState_ne hne, ho]⟩
    rcases h.pending with rfl | hp
    · rcases hx with rfl | ⟨hp, -⟩
      · exact .inl rfl
      · exact .inr (hkept hp)
    · exact .inr (hkept hp)

theorem change (h : Congruent p w w') (f : σ → σ) :
    Congruent p { w with rest := f w.rest } { w' with rest := f w'.rest } := by
  refine ⟨congrArg f h.rest, h.gathers, h.size, h.state, h.flat, h.has, ?_⟩
  exact h.pending.imp (fun heq => by rw [heq]) id

/-- A link on one side makes no difference. -/
theorem link (h : Congruent p w w') (hp : w'.Settled p) {q : PromiseId} {ks : List (Continuation η)}
    (hq : w'.store.state q = .pending ks) :
    Congruent p w { w' with store := w'.store.setState q (.pending (ks ++ [.adopt p])) } := by
  refine ⟨h.rest, h.gathers, ?_, fun r => ?_, h.flat, h.has, .inr (h.symm.settled hp)⟩
  · rw [h.size]
    simp [Store.setState]
  · by_cases hr : r = q
    · subst hr
      obtain ⟨ks₀, hks₀, hbesides⟩ := h.symm.of_pending hq
      by_cases hhas : w'.store.Has r
      · refine .inr ⟨ks₀, _, hks₀, Store.state_setState_self hhas, ?_⟩
        rw [Continuation.besides_append, ← hbesides]
        simp [Continuation.besides, Continuation.isAdoption]
      · have hnone : (w'.store.setState r (.pending (ks ++ [.adopt p]))).state r = .pending [] :=
          Store.state_of_not_has (mt Store.has_setState.1 hhas)
        have hnil : ks = [] := PromiseState.pending.inj (hq.symm.trans (Store.state_of_not_has hhas))
        exact .inr ⟨ks₀, [], hks₀, hnone, by rw [← hbesides, hnil]⟩
    · rw [Store.state_setState_ne hr]
      exact h.state r

end Congruent

/-! ## Runs that come to the same end -/

/-- Two runs come to the same end, with the same trace besides links, and `p` is settled at the end if
`b` says so. Nothing is said of a run that is cut short for want of fuel. -/
inductive SameEnd (p : PromiseId) (b : Bool) :
    EStateM.Result Halt (World η σ) α × List (Event η) →
      EStateM.Result Halt (World η σ) α × List (Event η) → Prop
  | ok (a : α) {w w' : World η σ} {t t' : List (Event η)} (h : Congruent p w w')
      (hb : b = true → w.Settled p) (ht : Event.besides p t = Event.besides p t') :
      SameEnd p b (.ok a w, t) (.ok a w', t')
  | panic {w w' : World η σ} {t t' : List (Event η)} (h : Congruent p w w')
      (ht : Event.besides p t = Event.besides p t') :
      SameEnd p b (.error .panic w, t) (.error .panic w', t')
  | outOfFuel (w : World η σ) (t : List (Event η))
      (r : EStateM.Result Halt (World η σ) α × List (Event η)) : SameEnd p b (.error .outOfFuel w, t) r

/-- From congruent worlds two computations come to the same end. That `p` is settled is known before
if `b` says so, and after if `b'` does. -/
def Mirrors (p : PromiseId) (b b' : Bool) (x x' : Recorded η σ α) : Prop :=
  ∀ w w', Congruent p w w' → (b = true → w.Settled p) → SameEnd p b' (x w) (x' w')

namespace SameEnd

variable {b : Bool} {r r' : EStateM.Result Halt (World η σ) α × List (Event η)}

/-- The same events before. -/
theorem after (h : SameEnd p b r r') (t t' : List (Event η))
    (ht : Event.besides p t = Event.besides p t') :
    SameEnd p b (r.1, t ++ r.2) (r'.1, t' ++ r'.2) := by
  cases h with
  | ok a h hb hu => exact .ok a h hb (by rw [Event.besides_append, Event.besides_append, ht, hu])
  | panic h hu => exact .panic h (by rw [Event.besides_append, Event.besides_append, ht, hu])
  | outOfFuel w t r => exact .outOfFuel w _ _

/-- Events before that do not count. -/
theorem afterLeft (h : SameEnd p b r r') {t : List (Event η)} (ht : Event.besides p t = []) :
    SameEnd p b (r.1, t ++ r.2) r' := h.after t [] ht

/-- Less is known. -/
theorem forget (h : SameEnd p true r r') : SameEnd p b r r' := by
  cases h with
  | ok a h hp ht => exact .ok a h (fun _ => hp rfl) ht
  | panic h ht => exact .panic h ht
  | outOfFuel w t r => exact .outOfFuel w t _

theorem afterRight (h : SameEnd p b r r') {t : List (Event η)} (ht : Event.besides p t = []) :
    SameEnd p b r (r'.1, t ++ r'.2) := h.after [] t ht.symm

end SameEnd

namespace Mirrors

variable {b b₁ b₂ : Bool}

theorem pure (a : α) : Mirrors (σ := σ) (η := η) p b b (Pure.pure a) (Pure.pure a) :=
  fun _ _ h hb => .ok a h hb rfl

theorem panic : Mirrors p b b (Recorded.halt .panic : Recorded η σ α) (Recorded.halt .panic) :=
  fun _ _ h _ => .panic h rfl

theorem bind {x x' : Recorded η σ α} {f f' : α → Recorded η σ β} (hx : Mirrors p b b₁ x x')
    (hf : ∀ a, Mirrors p b₁ b₂ (f a) (f' a)) : Mirrors p b b₂ (x >>= f) (x' >>= f') := by
  intro w w' h hb
  have hend := hx w w' h hb
  simp only [Bind.bind]
  generalize x w = r, x' w' = r' at hend
  cases hend with
  | ok a h hb ht => exact (hf a _ _ h hb).after _ _ ht
  | panic h ht => exact .panic h ht
  | outOfFuel w t r => exact .outOfFuel w t _

theorem note (e : Event η) : Mirrors (σ := σ) p b b (Recorded.note e) (Recorded.note e) :=
  fun _ _ h hb => .ok () h hb rfl

theorem new : Mirrors (σ := σ) (η := η) p b b Recorded.new Recorded.new := by
  intro w w' h hb
  have hid : w.store.fresh.1 = w'.store.fresh.1 := by rw [Store.fresh, Store.fresh, h.size]
  simp only [Recorded.new, Recorded.onStore, hid]
  refine .ok _ ⟨h.rest, h.gathers, ?_, fun q => ?_, h.flat.of_state_eq (Store.state_fresh _),
    Store.has_fresh.2 (.inl h.has), ?_⟩ (fun hb' => ?_) rfl
  · simp [Store.fresh, h.size]
  · simp only [Store.state_fresh]
    exact h.state q
  · refine h.pending.imp (fun heq => by rw [heq]) fun hp => hp.imp fun o ho => ?_
    exact (Store.state_fresh _ _).trans ho
  · exact (hb hb').imp fun o ho => (Store.state_fresh _ _).trans ho

/-- A step on the gathers alone. -/
theorem onGathers {step : Store η → α × Store η} {events : α → List (Event η)}
    (hanswer : ∀ s s', s.gathers = s'.gathers →
      (step s).1 = (step s').1 ∧ (step s).2.gathers = (step s').2.gathers)
    (hkept : ∀ s, (step s).2.promises = s.promises) :
    Mirrors (σ := σ) p b b (Recorded.onStore step events) (Recorded.onStore step events) := by
  intro w w' h hb
  have hstate : ∀ s q, (step s).2.state q = s.state q := fun s q => by
    rw [Store.state, Store.state, hkept]
  obtain ⟨hsame, hgathers⟩ := hanswer w.store w'.store h.gathers
  simp only [Recorded.onStore, ← hsame]
  refine .ok _ ⟨h.rest, hgathers, ?_, fun q => ?_, h.flat.of_state_eq (hstate _), ?_, ?_⟩
    (fun hb' => ?_) rfl
  · rw [hkept, hkept, h.size]
  · rw [hstate, hstate]
    exact h.state q
  · have hp := h.has
    rwa [Store.Has, hkept]
  · refine h.pending.imp (fun heq => by rw [heq]) fun hp => hp.imp fun o ho => ?_
    exact (hstate _ _).trans ho
  · exact (hb hb').imp fun o ho => (hstate _ _).trans ho

theorem gathering (g : Gather) (events : GatherId → List (Event η)) :
    Mirrors (σ := σ) p b b (Recorded.onStore (Store.addGather g) events)
      (Recorded.onStore (Store.addGather g) events) :=
  onGathers (fun s s' h => by simp [Store.addGather, h]) fun _ => rfl

theorem recorded (id : GatherId) (place : Nat) (o : Outcome)
    (events : Option (PromiseId × Outcome) → List (Event η)) :
    Mirrors (σ := σ) p b b (Recorded.onStore (Store.record id place o) events)
      (Recorded.onStore (Store.record id place o) events) := by
  refine onGathers (fun s s' h => ?_) fun s => ?_
  · simp only [Store.record, h]
    split <;> simp [h]
  · unfold Store.record
    split <;> rfl

end Mirrors

/-! ## Links that are run for nothing -/

theorem Recorded.settle_settled {deliver : Continuation η → Outcome → Recorded η σ Unit}
    {w : World η σ} (hp : w.Settled p) (o : Outcome) : settle deliver p o w = (.ok () w, []) := by
  obtain ⟨o', ho'⟩ := hp
  simp only [settle, beginSettle, bind, ho']
  cases o' <;> rfl

/-- A link to a settled promise is run for nothing, or not at all for want of fuel. -/
def Fruitless (p : PromiseId) (deliver : Continuation η → Outcome → Recorded η σ Unit) : Prop :=
  ∀ w o, Concrete o → w.Settled p →
    deliver (.adopt p) o w = (.ok () w, []) ∨ deliver (.adopt p) o w = (.error .outOfFuel w, [])

/-- A link to a settled promise is run for nothing. -/
def Idle (p : PromiseId) (deliver : Continuation η → Outcome → Recorded η σ Unit) : Prop :=
  ∀ w o, Concrete o → w.Settled p → deliver (.adopt p) o w = (.ok () w, [])

/-- Giving a settled promise an outcome does nothing, or leaves a link, or runs one. -/
theorem Recorded.fulfil_settled {deliver : Continuation η → Outcome → Recorded η σ Unit}
    {w : World η σ} (hflat : w.store.Flat) (hp : w.Settled p) (o : Outcome) :
    fulfil deliver p o w = (.ok () w, []) ∨
    (∃ q ks, w.store.state q = .pending ks ∧ fulfil deliver p o w =
      (.ok () { w with store := w.store.setState q (.pending (ks ++ [.adopt p])) },
        [.stage q (.registered (.adopt p))])) ∨
    ∃ q o', Concrete o' ∧ fulfil deliver p o w = ((deliver (.adopt p) o' w).1,
      [.stage q (.answered (.adopt p) o')] ++ (deliver (.adopt p) o' w).2) := by
  rcases concrete_or_promise o with ho | ⟨q, rfl⟩
  · rw [fulfil_concrete _ ho]
    exact .inl (settle_settled hp o)
  · by_cases hq : q = p
    · subst hq
      rw [fulfil_self]
      exact .inl (settle_settled hp _)
    · rw [fulfil_other _ hq]
      rcases Store.register_cases q (.adopt p) w.store with ⟨ks, hks, hs⟩ | ⟨o', ho', hs⟩
      · exact .inr (.inl ⟨q, ks, hks, by simp only [onComplete, onStore, bind, hs]; rfl⟩)
      · refine .inr (.inr ⟨q, o', hflat q o' ho', ?_⟩)
        simp only [onComplete, onStore, bind, hs]

section Deliver

variable {deliver deliver' : Continuation η → Outcome → Recorded η σ Unit}

theorem Event.besides_registered (q : PromiseId) :
    besides p [Event.stage (η := η) q (.registered (.adopt p))] = [] := by
  simp [besides, isAdoption, Continuation.isAdoption]

theorem Event.besides_invoked (q : PromiseId) (o : Outcome) :
    besides p [Event.stage (η := η) q (.invoked (.adopt p) o)] = [] := by
  simp [besides, isAdoption, Continuation.isAdoption]

theorem Event.besides_answered (q : PromiseId) (o : Outcome) :
    besides p [Event.stage (η := η) q (.answered (.adopt p) o)] = [] := by
  simp [besides, isAdoption, Continuation.isAdoption]

/-- A further call on the right. -/
theorem Mirrors.again {b : Bool} {x x' : Recorded η σ α} (hidle : Idle p deliver')
    (hx : Mirrors p true b x x') (o : Outcome) :
    Mirrors p true b x (do Recorded.fulfil deliver' p o; x') := by
  intro w w' h hb
  have hp := h.settled (hb rfl)
  simp only [Bind.bind]
  rcases Recorded.fulfil_settled h.symm.flat hp o with hf | ⟨q, ks, hks, hf⟩ | ⟨q, o', ho', hf⟩
  · rw [hf]
    exact hx w w' h hb
  · rw [hf]
    exact (hx w _ (h.link hp hks) hb).afterRight (Event.besides_registered q)
  · rw [hidle w' o' ho' hp] at hf
    rw [hf]
    exact (hx w w' h hb).afterRight (Event.besides_answered q o')

/-- A further call on the left, which may want fuel. -/
theorem Mirrors.before {b : Bool} {x x' : Recorded η σ α} (hfruitless : Fruitless p deliver)
    (hx : Mirrors p true b x x') (o : Outcome) :
    Mirrors p true b (do Recorded.fulfil deliver p o; x) x' := by
  intro w w' h hb
  simp only [Bind.bind]
  rcases Recorded.fulfil_settled h.flat (hb rfl) o with hf | ⟨q, ks, hks, hf⟩ | ⟨q, o', ho', hf⟩
  · rw [hf]
    exact hx w w' h hb
  · rw [hf]
    have hlinked := (h.symm.link (hb rfl) hks).symm
    exact (hx _ w' hlinked fun _ => hlinked.symm.settled (h.settled (hb rfl))).afterLeft
      (Event.besides_registered q)
  · rcases hfruitless w o' ho' (hb rfl) with hrun | hrun
    · rw [hrun] at hf
      rw [hf]
      exact (hx w w' h hb).afterLeft (Event.besides_answered q o')
    · rw [hrun] at hf
      rw [hf]
      exact .outOfFuel ..

/-- Links at the head of a list are passed over. -/
theorem deliverAll_links {w : World η σ} (hp : w.Settled p) (hidle : Idle p deliver)
    {links : List (Continuation η)} (hlinks : ∀ k ∈ links, k = .adopt p) (q : PromiseId) {o : Outcome}
    (ho : Concrete o) (ks : List (Continuation η)) :
    ∃ t, Event.besides p t = [] ∧ Recorded.deliverAll deliver q (links ++ ks) o w =
      ((Recorded.deliverAll deliver q ks o w).1, t ++ (Recorded.deliverAll deliver q ks o w).2) := by
  induction links with
  | nil => exact ⟨[], rfl, rfl⟩
  | cons k links ih =>
    rw [List.forall_mem_cons] at hlinks
    obtain ⟨rfl, hlinks⟩ := hlinks
    obtain ⟨t, ht, hrun⟩ := ih hlinks
    refine ⟨.stage q (.invoked (.adopt p) o) :: t, ?_, ?_⟩
    · rw [← List.singleton_append, Event.besides_append, Event.besides_invoked, ht, List.append_nil]
    · simp only [List.cons_append, Recorded.deliverAll, Recorded.note, bind, hidle w o ho hp, hrun]
      rfl

section

variable (hd : ∀ (b : Bool) k o, Concrete o → Mirrors p b b (deliver k o) (deliver' k o))
include hd

theorem Mirrors.deliverAll {b : Bool} (q : PromiseId) {o : Outcome} (ho : Concrete o) :
    ∀ ks, Mirrors p b b (Recorded.deliverAll deliver q ks o) (Recorded.deliverAll deliver' q ks o)
  | [] => .note _
  | k :: ks => .bind (.note _) fun _ => .bind (hd b k o ho) fun _ => deliverAll q ho ks

theorem Mirrors.onComplete {b : Bool} (q : PromiseId) (k : Continuation η) :
    Mirrors p b b (Recorded.onComplete deliver q k) (Recorded.onComplete deliver' q k) := by
  intro w w' h hb
  rcases Store.register_cases q k w.store with ⟨ks, hks, hs⟩ | ⟨o, ho, hs⟩
  · obtain ⟨ks', hks', hbesides⟩ := h.of_pending hks
    have hs' : w'.store.register q k = (none, w'.store.setState q (.pending (ks' ++ [k]))) := by
      simp only [Store.register, hks']
    have hafter : Congruent p { w with store := w.store.setState q (.pending (ks ++ [k])) }
        { w' with store := w'.store.setState q (.pending (ks' ++ [k])) } := by
      refine h.setState hks ?_ fun o ho => absurd ho.symm (PromiseState.ofOutcome_ne_pending o _)
      rcases h.pending with rfl | hp
      · obtain rfl := PromiseState.pending.inj (hks.symm.trans hks')
        exact .inl rfl
      · refine .inr ⟨hp, _, _, rfl, rfl, ?_⟩
        rw [Continuation.besides_append, Continuation.besides_append, hbesides]
    simp only [Recorded.onComplete, Recorded.onStore, Bind.bind, hs, hs']
    refine .ok () hafter (fun hb' => ?_) rfl
    obtain ⟨o, ho⟩ := hb hb'
    have hne : p ≠ q := by
      rintro rfl
      exact PromiseState.ofOutcome_ne_pending o ks (ho.symm.trans hks)
    exact ⟨o, (Store.state_setState_ne hne).trans ho⟩
  · have hs' : w'.store.register q k = (some o, w'.store) := by
      have hq := h.of_outcome ho
      rcases Store.register_cases q k w'.store with ⟨ks, hks, -⟩ | ⟨o', ho', hs'⟩
      · exact absurd (hq.symm.trans hks) (PromiseState.ofOutcome_ne_pending o ks)
      · rw [hs', PromiseState.ofOutcome_injective (hq.symm.trans ho')]
    simp only [Recorded.onComplete, Recorded.onStore, Bind.bind, hs, hs']
    exact (hd b k o (h.flat q o ho) w w' h hb).after _ _ rfl

theorem Mirrors.derive {b : Bool} (q : PromiseId) (handler : η) :
    Mirrors p b b (Recorded.derive deliver q handler) (Recorded.derive deliver' q handler) :=
  .bind .new fun r => .bind (onComplete hd q _) fun _ => .pure r

theorem Mirrors.watch {b : Bool} (id : GatherId) : ∀ awaited : List (Nat × PromiseId),
    Mirrors p b b (Recorded.watch deliver id awaited) (Recorded.watch deliver' id awaited)
  | [] => .pure ()
  | (_, q) :: rest => .bind (onComplete hd q _) fun _ => watch id rest

variable (hfruitless : Fruitless p deliver) (hidle : Idle p deliver')
include hfruitless hidle

/-- Once the promise is settled, lists of continuations count besides the links in them. -/
theorem Mirrors.deliverAll_besides (q : PromiseId) {o : Outcome} (ho : Concrete o) :
    ∀ {ks ks' : List (Continuation η)}, Continuation.besides p ks = Continuation.besides p ks' →
      Mirrors p true true (Recorded.deliverAll deliver q ks o) (Recorded.deliverAll deliver' q ks' o)
  | [], ks', hks => by
    intro w w' h hp
    have hlinks : ∀ k ∈ ks', k = .adopt p := fun k hk => by
      have hk' := List.filter_eq_nil_iff.1 hks.symm k hk
      exact Continuation.isAdoption_iff.1 (by simpa using hk')
    obtain ⟨t, ht, hrun⟩ := deliverAll_links (h.settled (hp rfl)) hidle hlinks q ho []
    rw [List.append_nil] at hrun
    rw [hrun]
    exact (Mirrors.deliverAll hd q ho [] w w' h hp).afterRight ht
  | k :: ks, ks', hks => by
    intro w w' h hp
    by_cases hk : k.isAdoption p = true
    · obtain rfl := Continuation.isAdoption_iff.1 hk
      rw [Continuation.besides_adopt] at hks
      have hrest := Mirrors.deliverAll_besides q ho hks w w' h hp
      rcases hfruitless w o ho (hp rfl) with hrun | hrun
      · simp only [Recorded.deliverAll, Recorded.note, Bind.bind, hrun]
        exact hrest.afterLeft (Event.besides_invoked q o)
      · simp only [Recorded.deliverAll, Recorded.note, Bind.bind, hrun]
        exact .outOfFuel ..
    · -- the same continuation comes next on the other side, after some links
      have hk : k.isAdoption p = false := by simpa using hk
      rw [Continuation.besides_cons hk] at hks
      obtain ⟨links, rest, rfl, hlinks, -, hrest⟩ := List.filter_eq_cons_iff.1 hks.symm
      have hlinks : ∀ k ∈ links, k = .adopt p := fun k hk => by
        exact Continuation.isAdoption_iff.1 (by simpa using hlinks k hk)
      obtain ⟨t, ht, hrun⟩ := deliverAll_links (h.settled (hp rfl)) hidle hlinks q ho (k :: rest)
      rw [hrun]
      have hboth : Mirrors p true true (Recorded.deliverAll deliver q (k :: ks) o)
          (Recorded.deliverAll deliver' q (k :: rest) o) :=
        .bind (.note _) fun _ => .bind (hd true k o ho) fun _ =>
          Mirrors.deliverAll_besides q ho hrest.symm
      exact (hboth w w' h hp).afterRight ht

/-- A promise is settled, `p` itself perhaps. -/
theorem Mirrors.settle {b b' : Bool} {q : PromiseId} (hb' : b' = true → b = true ∨ q = p)
    {o : Outcome} (ho : Concrete o) :
    Mirrors p b b' (Recorded.settle deliver q o) (Recorded.settle deliver' q o) := by
  intro w w' h hb
  rcases (w.store.state q).pending_or_ofOutcome with ⟨ks, hks⟩ | ⟨o', ho'⟩
  · obtain ⟨ks', hks', hbesides⟩ := h.of_pending hks
    have hafter : Congruent p { w with store := (w.store.settle q o).2 }
        { w' with store := (w'.store.settle q o).2 } := by
      rw [Store.settle_pending hks, Store.settle_pending hks']
      exact h.setState hks (.inl rfl) fun o' ho' => PromiseState.ofOutcome_injective ho' ▸ ho
    have hknown : b' = true → World.Settled p { w with store := (w.store.settle q o).2 } := by
      intro hb₁
      rw [Store.settle_pending hks]
      by_cases hqp : q = p
      · subst hqp
        exact ⟨o, Store.state_setState_self h.has⟩
      · obtain ⟨o₁, ho₁⟩ := hb ((hb' hb₁).resolve_right hqp)
        exact ⟨o₁, (Store.state_setState_ne (Ne.symm hqp)).trans ho₁⟩
    simp only [Recorded.settle, Recorded.beginSettle, Bind.bind, hks, hks']
    refine SameEnd.after ?_ [.stage q (.settled o)] [.stage q (.settled o)] rfl
    rcases h.pending with rfl | hp
    · obtain rfl := PromiseState.pending.inj (hks.symm.trans hks')
      exact Mirrors.deliverAll hd q ho ks _ _ hafter hknown
    · have hp' : World.Settled p { w with store := (w.store.settle q o).2 } :=
        hp.imp fun _ hp => Store.state_of_outcome?
          (Store.outcome?_settle o (Store.outcome?_of_state hp))
      have hrest := Mirrors.deliverAll_besides hd hfruitless hidle q ho hbesides
      exact (hrest _ _ hafter fun _ => hp').forget
  · have hsettled : ∀ (deliver : Continuation η → Outcome → Recorded η σ Unit) (w : World η σ),
        w.store.state q = .ofOutcome o' → Recorded.settle deliver q o w = (.ok () w, []) :=
      fun _ _ hq => Recorded.settle_settled ⟨o', hq⟩ o
    rw [hsettled deliver w ho', hsettled deliver' w' (h.of_outcome ho')]
    refine .ok () h (fun hb₁ => ?_) rfl
    rcases hb' hb₁ with hb₀ | rfl
    · exact hb hb₀
    · exact ⟨o', ho'⟩

theorem Mirrors.fulfil {b : Bool} (q : PromiseId) (o : Outcome) :
    Mirrors p b b (Recorded.fulfil deliver q o) (Recorded.fulfil deliver' q o) := by
  rcases concrete_or_promise o with ho | ⟨r, rfl⟩
  · rw [Recorded.fulfil_concrete _ ho, Recorded.fulfil_concrete _ ho]
    exact settle hd hfruitless hidle .inl ho
  · by_cases hr : r = q
    · subst hr
      rw [Recorded.fulfil_self, Recorded.fulfil_self]
      exact settle hd hfruitless hidle .inl (concrete_error _)
    · rw [Recorded.fulfil_other _ hr, Recorded.fulfil_other _ hr]
      exact onComplete hd r _

/-- Unless it is given another promise, `p` is settled afterwards. -/
theorem Mirrors.fulfil_first {b : Bool} {o : Outcome} (ho : ∀ q, o = .ok (.promise q) → q = p) :
    Mirrors p b true (Recorded.fulfil deliver p o) (Recorded.fulfil deliver' p o) := by
  rcases concrete_or_promise o with hc | ⟨q, rfl⟩
  · rw [Recorded.fulfil_concrete _ hc, Recorded.fulfil_concrete _ hc]
    exact settle hd hfruitless hidle (fun _ => .inr rfl) hc
  · obtain rfl := ho q rfl
    rw [Recorded.fulfil_self, Recorded.fulfil_self]
    exact settle hd hfruitless hidle (fun _ => .inr rfl) (concrete_error _)

theorem Mirrors.settled {b : Bool} (o : Outcome) :
    Mirrors p b b (Recorded.settled deliver o) (Recorded.settled deliver' o) :=
  .bind .new fun q => .bind (fulfil hd hfruitless hidle q o) fun _ => .pure q

theorem Mirrors.all {b : Bool} (operands : List Value) :
    Mirrors p b b (Recorded.all deliver operands) (Recorded.all deliver' operands) := by
  unfold Recorded.all
  cases Promise.places 0 operands with
  | nil => exact settled hd hfruitless hidle _
  | cons a rest =>
    exact .bind .new fun result => .bind (.gathering _ _) fun id =>
      .bind (watch hd id _) fun _ => .pure result

theorem Mirrors.deliverStep {b : Bool} {handle handle' : η → Outcome → Recorded η σ Outcome}
    (hh : ∀ (b : Bool) h o, Concrete o → Mirrors p b b (handle h o) (handle' h o))
    (k : Continuation η) {o : Outcome} (ho : Concrete o) :
    Mirrors p b b (Recorded.deliverStep deliver handle k o)
      (Recorded.deliverStep deliver' handle' k o) := by
  cases k with
  | adopt target => exact fulfil hd hfruitless hidle target o
  | derive target h =>
    exact .bind (.note _) fun _ => .bind (hh b h o ho) fun answer =>
      fulfil hd hfruitless hidle target answer
  | gather id place =>
    refine .bind (.recorded id place o _) fun finished => ?_
    cases finished with
    | none => exact .pure ()
    | some c => exact fulfil hd hfruitless hidle c.1 c.2
  | notify h => exact .bind (.note _) fun _ => .bind (hh b h o ho) fun _ => .pure ()

end

end Deliver

/-! ## Further calls -/

/-- The routines are the same, apart from calls that give `p` an outcome where it is known to be
settled. That is known at the start if `b` says so, after a call that has settled `p`, and after a look
that has shown it. What the routines see with a look they see alike in congruent worlds. -/
inductive Repeats (p : PromiseId) : Bool → Routine η σ α → Routine η σ α → Prop
  | done (b : Bool) (a : α) : Repeats p b (.done a) (.done a)
  | panic (b : Bool) : Repeats p b .panic .panic
  | look {b : Bool} {next next' : World η σ → Routine η σ α}
      (pending : ∀ w w', Congruent p w w' → ¬w.Settled p → Repeats p b (next w) (next' w'))
      (settled : ∀ w w', Congruent p w w' → w.Settled p → Repeats p true (next w) (next' w')) :
      Repeats p b (.look next) (.look next')
  | change {b : Bool} (f : σ → σ) {next next' : Routine η σ α} (h : Repeats p b next next') :
      Repeats p b (.change f next) (.change f next')
  | new {b : Bool} {next next' : PromiseId → Routine η σ α} (h : ∀ q, Repeats p b (next q) (next' q)) :
      Repeats p b (.new next) (.new next')
  | settled {b : Bool} (o : Outcome) {next next' : PromiseId → Routine η σ α}
      (h : ∀ q, Repeats p b (next q) (next' q)) : Repeats p b (.settled o next) (.settled o next')
  | fulfil {b : Bool} (q : PromiseId) (o : Outcome) {next next' : Routine η σ α}
      (h : Repeats p b next next') : Repeats p b (.fulfil q o next) (.fulfil q o next')
  | onComplete {b : Bool} (q : PromiseId) (k : Continuation η) {next next' : Routine η σ α}
      (h : Repeats p b next next') : Repeats p b (.onComplete q k next) (.onComplete q k next')
  | derive {b : Bool} (q : PromiseId) (handler : η) {next next' : PromiseId → Routine η σ α}
      (h : ∀ r, Repeats p b (next r) (next' r)) :
      Repeats p b (.derive q handler next) (.derive q handler next')
  | all {b : Bool} (operands : List Value) {next next' : PromiseId → Routine η σ α}
      (h : ∀ r, Repeats p b (next r) (next' r)) :
      Repeats p b (.all operands next) (.all operands next')
  /-- A look on the right alone. -/
  | sees {b : Bool} {r : Routine η σ α} {next : World η σ → Routine η σ α}
      (pending : ∀ w, ¬w.Settled p → Repeats p b r (next w))
      (settled : ∀ w, w.Settled p → Repeats p true r (next w)) : Repeats p b r (.look next)
  /-- A look on the left alone. -/
  | seen {b : Bool} {r : Routine η σ α} {next : World η σ → Routine η σ α}
      (pending : ∀ w, ¬w.Settled p → Repeats p b (next w) r)
      (settled : ∀ w, w.Settled p → Repeats p true (next w) r) : Repeats p b (.look next) r
  /-- The call that settles `p`: it is given an error, a value or itself. -/
  | first {b : Bool} {o : Outcome} (ho : ∀ q, o = .ok (.promise q) → q = p)
      {next next' : Routine η σ α} (h : Repeats p true next next') :
      Repeats p b (.fulfil p o next) (.fulfil p o next')
  /-- A further call on the right. -/
  | again (o : Outcome) {next next' : Routine η σ α} (h : Repeats p true next next') :
      Repeats p true next (.fulfil p o next')
  /-- A further call on the left. -/
  | before (o : Outcome) {next next' : Routine η σ α} (h : Repeats p true next next') :
      Repeats p true (.fulfil p o next) next'

theorem Repeats.symm {b : Bool} {r r' : Routine η σ α} (h : Repeats p b r r') : Repeats p b r' r := by
  induction h with
  | done b a => exact .done b a
  | panic b => exact .panic b
  | look _ _ ihp ihs =>
    exact .look (fun w w' h hp => ihp w' w h.symm fun hp' => hp (h.symm.settled hp'))
      fun w w' h hp => ihs w' w h.symm (h.settled hp)
  | change f _ ih => exact .change f ih
  | new _ ih => exact .new ih
  | settled o _ ih => exact .settled o ih
  | fulfil q o _ ih => exact .fulfil q o ih
  | onComplete q k _ ih => exact .onComplete q k ih
  | derive q handler _ ih => exact .derive q handler ih
  | all operands _ ih => exact .all operands ih
  | sees _ _ ihp ihs => exact .seen ihp ihs
  | seen _ _ ihp ihs => exact .sees ihp ihs
  | first ho _ ih => exact .first ho ih
  | again o _ ih => exact .before o ih
  | before o _ ih => exact .again o ih

/-- What is known may be more than is used. -/
theorem Repeats.known {b : Bool} {r r' : Routine η σ α} (h : Repeats p b r r') :
    Repeats p true r r' := by
  induction h with
  | done b a => exact .done true a
  | panic b => exact .panic true
  | look _ hs ihp _ => exact .look ihp hs
  | change f _ ih => exact .change f ih
  | new _ ih => exact .new ih
  | settled o _ ih => exact .settled o ih
  | fulfil q o _ ih => exact .fulfil q o ih
  | onComplete q k _ ih => exact .onComplete q k ih
  | derive q handler _ ih => exact .derive q handler ih
  | all operands _ ih => exact .all operands ih
  | sees _ hs ihp _ => exact .sees ihp hs
  | seen _ hs ihp _ => exact .seen ihp hs
  | first ho h _ => exact .first ho h
  | again o h _ => exact .again o h
  | before o h _ => exact .before o h

section Runs

variable {deliver deliver' : Continuation η → Outcome → Recorded η σ Unit}
  (hd : ∀ (b : Bool) k o, Concrete o → Mirrors p b b (deliver k o) (deliver' k o))
  (hfruitless : Fruitless p deliver) (hidle : Idle p deliver')

include hd hfruitless hidle

theorem Repeats.mirrors {b : Bool} {r r' : Routine η σ α} (h : Repeats p b r r') :
    Mirrors p b b (r.recordWith deliver) (r'.recordWith deliver') := by
  induction h with
  | done b a => exact .pure a
  | panic b => exact .panic
  | look _ _ ihp ihs =>
    intro w w' h hb
    by_cases hp : w.Settled p
    · exact (ihs w w' h hp w w' h fun _ => hp).forget
    · exact ihp w w' h hp w w' h hb
  | change f _ ih => exact fun w w' h hb => ih _ _ (h.change f) hb
  | new _ ih => exact .bind .new ih
  | settled o _ ih => exact .bind (.settled hd hfruitless hidle o) ih
  | fulfil q o _ ih => exact .bind (.fulfil hd hfruitless hidle q o) fun _ => ih
  | onComplete q k _ ih => exact .bind (.onComplete hd q k) fun _ => ih
  | derive q handler _ ih => exact .bind (.derive hd q handler) ih
  | all operands _ ih => exact .bind (.all hd hfruitless hidle operands) ih
  | sees _ _ ihp ihs =>
    intro w w' h hb
    by_cases hp : w.Settled p
    · exact (ihs w' (h.settled hp) w w' h fun _ => hp).forget
    · exact ihp w' (fun hp' => hp (h.symm.settled hp')) w w' h hb
  | seen _ _ ihp ihs =>
    intro w w' h hb
    by_cases hp : w.Settled p
    · exact (ihs w hp w w' h fun _ => hp).forget
    · exact ihp w hp w w' h hb
  | first ho _ ih =>
    intro w w' h hb
    exact (Mirrors.bind (.fulfil_first hd hfruitless hidle ho) (fun _ => ih) w w' h hb).forget
  | again o _ ih => exact .again hidle ih o
  | before o _ ih => exact .before hfruitless ih o

end Runs

section Handlers

variable {handle handle' : η → Outcome → Routine η σ Outcome}

theorem idle_recordDeliver (n : Nat) : Idle p (Routine.recordDeliver handle (n + 1)) := by
  intro w o ho hp
  simp only [Routine.recordDeliver, Recorded.deliverStep]
  rw [Recorded.fulfil_concrete _ ho, Recorded.settle_settled hp]

theorem fruitless_recordDeliver : ∀ n : Nat, Fruitless p (Routine.recordDeliver handle n)
  | 0 => fun _ _ _ _ => .inr rfl
  | n + 1 => fun w o ho hp => .inl (idle_recordDeliver n w o ho hp)

variable (hh : ∀ h o, Repeats p false (handle h o) (handle' h o))
include hh

/-- Continuations are run to the same end, with one level more on the right for the links there. -/
theorem mirrors_recordDeliver (n : Nat) (b : Bool) (k : Continuation η) {o : Outcome}
    (ho : Concrete o) :
    Mirrors p b b (Routine.recordDeliver handle n k o) (Routine.recordDeliver handle' (n + 1) k o) := by
  induction n generalizing b k o with
  | zero => exact fun w w' h hb => .outOfFuel w [] _
  | succ n ih =>
    have hd : ∀ (b : Bool) k o, Concrete o → Mirrors p b b (Routine.recordDeliver handle n k o)
        (Routine.recordDeliver handle' (n + 1) k o) := fun b k o => ih b k
    have hfruitless : Fruitless p (Routine.recordDeliver handle n) := fruitless_recordDeliver n
    have hidle : Idle p (Routine.recordDeliver handle' (n + 1)) := idle_recordDeliver n
    refine Mirrors.deliverStep hd hfruitless hidle (fun b h o _ => ?_) k ho
    cases b with
    | false => exact (hh h o).mirrors hd hfruitless hidle
    | true => exact (hh h o).known.mirrors hd hfruitless hidle

/-- Routines that repeat each other come to the same end. -/
theorem Repeats.sameEnd {b : Bool} {r r' : Routine η σ α} (hr : Repeats p b r r') (n : Nat) :
    Mirrors p b b (r.record handle n) (r'.record handle' (n + 1)) :=
  hr.mirrors (fun b k _ ho => mirrors_recordDeliver hh n b k ho) (fruitless_recordDeliver n)
    (idle_recordDeliver n)

end Handlers

/-- Whenever the first run comes to its end, so does the second with one level more to nest in: with the
same result, the same state beside the promises, the same outcome of every promise, and the same trace
besides links by which `p` is to adopt an outcome. -/
def EndsAs (p : PromiseId) (w : World η σ) (handle handle' : η → Outcome → Routine η σ Outcome)
    (r r' : Routine η σ α) : Prop :=
  ∀ n a w₁, r.perform handle n w = .ok a w₁ → ∃ w₂, r'.perform handle' (n + 1) w = .ok a w₂ ∧
    w₂.rest = w₁.rest ∧ (∀ q, w₂.store.outcome? q = w₁.store.outcome? q) ∧
    Event.besides p (r'.record handle' (n + 1) w).2 = Event.besides p (r.record handle n w).2

theorem Repeats.endsAs {handle handle' : η → Outcome → Routine η σ Outcome}
    (hh : ∀ h o, Repeats p false (handle h o) (handle' h o)) {r r' : Routine η σ α}
    (hr : Repeats p false r r') {w : World η σ} (hflat : w.store.Flat) (hp : w.store.Has p) :
    EndsAs p w handle handle' r r' := by
  intro n a w₁ hrun
  have hend := hr.sameEnd hh n w w (.refl hflat hp) nofun
  rw [← Routine.record_fst] at hrun
  simp only [← Routine.record_fst]
  generalize r.record handle n w = run, r'.record handle' (n + 1) w = run' at hrun hend
  cases hend with
  | ok a h hb ht =>
    cases hrun
    exact ⟨_, rfl, h.rest.symm, fun q => (h.outcome? q).symm, ht.symm⟩
  | panic h ht => cases hrun
  | outOfFuel w t r => cases hrun

/-! ## Calls that settle -/

/-- What a run that keeps to the rules leaves settled. -/
theorem TraceSpec.Obeys.settled {x : Recorded η σ α} (hx : (flatSpec η).Obeys x) {w : World η σ}
    (hflat : w.store.Flat) (hp : w.Settled p) : (finalWorld (x w).1).Settled p := by
  obtain ⟨o, ho⟩ := hp
  obtain ⟨-, hstore, -⟩ := hx w hflat
  have houtcome := Event.outcome?_replayAll (x w).2 (Store.outcome?_of_state ho)
  rw [← hstore] at houtcome
  exact ⟨o, Store.state_of_outcome? houtcome⟩

section

variable {deliver : Continuation η → Outcome → Recorded η σ Unit}
  (hd : ∀ k o, Concrete o → (flatSpec η).Obeys (deliver k o)) {w : World η σ} (hflat : w.store.Flat)
  (hp : w.store.Has p)
include hd hflat hp

/-- The promise is settled before its continuations are run, and stays so. -/
theorem Recorded.settled_of_settle {o : Outcome} (ho : Concrete o) :
    (finalWorld (settle deliver p o w).1).Settled p := by
  rcases (w.store.state p).pending_or_ofOutcome with ⟨ks, hks⟩ | ho'
  · have hafter : World.Settled p { w with store := (w.store.settle p o).2 } := by
      rw [Store.settle_pending hks]
      exact ⟨o, Store.state_setState_self hp⟩
    simp only [settle, beginSettle, bind, hks]
    exact (flatSpec_deliverAll hd p ho ks).settled (hflat.settle p ho) hafter
  · rw [settle_settled ho']
    exact ho'

theorem Recorded.settled_of_fulfil {o : Outcome} (ho : ∀ q, o = .ok (.promise q) → q = p) :
    (finalWorld (fulfil deliver p o w).1).Settled p := by
  rcases concrete_or_promise o with hc | ⟨q, rfl⟩
  · rw [fulfil_concrete _ hc]
    exact settled_of_settle hd hflat hp hc
  · obtain rfl := ho q rfl
    rw [fulfil_self]
    exact settled_of_settle hd hflat hp (concrete_error _)

end

/-- The outcome is another promise, which is pending. -/
def Store.Adopts (s : Store η) (p : PromiseId) (o : Outcome) : Prop :=
  ∃ q, o = .ok (.promise q) ∧ q ≠ p ∧ s.outcome? q = none

/-- A promise is settled by an outcome that it is given, unless that is another promise, and pending. -/
theorem Routine.settled_of_fulfil (handle : η → Outcome → Routine η σ Outcome) (n : Nat)
    {w : World η σ} (hflat : w.store.Flat) (hp : w.store.Has p) {o : Outcome}
    (ho : ¬w.store.Adopts p o) :
    (finalWorld ((Routine.fulfil p o (.done ())).perform handle (n + 1) w)).Settled p := by
  have hlaw := flatSpec_law.recordDeliver handle
  have hrun : (Routine.fulfil p o (.done ())).record handle (n + 1) =
      (do Recorded.fulfil (recordDeliver handle (n + 1)) p o; pure ()) := rfl
  have hend : (finalWorld (Recorded.fulfil (recordDeliver handle (n + 1)) p o w).1).Settled p := by
    by_cases hother : ∃ q, o = .ok (.promise q) ∧ q ≠ p
    · -- another promise, which is settled, hands its outcome on at once
      obtain ⟨q, rfl, hq⟩ := hother
      rw [Recorded.fulfil_other _ hq]
      rcases Store.register_cases q (.adopt p) w.store with ⟨ks, hks, -⟩ | ⟨o', ho', hs⟩
      · exact absurd ⟨q, rfl, hq, by rw [Store.outcome?, hks]; rfl⟩ ho
      · have hconcrete : Concrete o' := hflat q o' ho'
        simp only [Recorded.onComplete, Recorded.onStore, Bind.bind, hs]
        exact Recorded.settled_of_fulfil (hlaw n) hflat hp
          fun r hr => absurd hr (hconcrete r)
    · refine Recorded.settled_of_fulfil (hlaw (n + 1)) hflat hp fun q hq => ?_
      exact Classical.byContradiction fun hne => hother ⟨q, hq, hne⟩
  rw [← record_fst, hrun]
  simp only [Bind.bind]
  generalize Recorded.fulfil (recordDeliver handle (n + 1)) p o w = result at hend
  obtain ⟨result, t⟩ := result
  cases result with
  | ok a w₁ => exact hend
  | error e w₁ => exact hend

/-- A promise is settled by the first outcome that it is given, unless that is another promise, and
pending. Further outcomes that it is given then are ignored, in every run from any store: whether there
are such calls or not, in the routine or in the handlers of any continuation, the run comes to an end
with the same result, every promise has the same outcome, and the same continuations have been run on
the same outcomes in the same order. -/
theorem later_fulfilment_ignored {handle handle' : η → Outcome → Routine η σ Outcome}
    (hh : ∀ h o, Repeats p false (handle h o) (handle' h o)) {r r' : Routine η σ α}
    (hr : Repeats p false r r') {w : World η σ} (hflat : w.store.Flat) (hp : w.store.Has p) :
    (∀ n o, ¬w.store.Adopts p o →
      (finalWorld ((Routine.fulfil p o (.done ())).perform handle (n + 1) w)).Settled p) ∧
    EndsAs p w handle handle' r r' ∧ EndsAs p w handle' handle r' r :=
  ⟨fun n _ => Routine.settled_of_fulfil handle n hflat hp, hr.endsAs hh hflat hp,
    hr.symm.endsAs (fun h o => (hh h o).symm) hflat hp⟩

namespace Insistent

/-- Promise 0 is pending with a continuation, and promise 1 without. -/
def before : World Nat Unit := ⟨⟨#[.pending [.notify 0], .pending []], #[]⟩, ()⟩

def handle (_ : Nat) (o : Outcome) : Routine Nat Unit Outcome := .done o

/-- The handler has promise 0, if that is settled, adopt promise 1. -/
def insist (_ : Nat) (o : Outcome) : Routine Nat Unit Outcome :=
  .look fun w =>
    if w.store.isPending ⟨0⟩ then .done o else .fulfil ⟨0⟩ (.ok (.promise ⟨1⟩)) (.done o)

def routine : Routine Nat Unit Unit :=
  .fulfil ⟨0⟩ (.ok .unit) (.fulfil ⟨1⟩ (.ok (.int 2)) (.done ()))

/-- The promise is given an error after it has been given a value. -/
def persistent : Routine Nat Unit Unit :=
  .fulfil ⟨0⟩ (.ok .unit)
    (.fulfil ⟨0⟩ (.error .divisionByZero) (.fulfil ⟨1⟩ (.ok (.int 2)) (.done ())))

end Insistent

open Insistent in
theorem later_fulfilment_ignored_insistent :
    EndsAs ⟨0⟩ before handle insist routine persistent ∧
    ∃ w, persistent.perform insist 2 before = .ok () w ∧
      w.store.outcome? ⟨0⟩ = some (.ok .unit) ∧ w.store.outcome? ⟨1⟩ = some (.ok (.int 2)) := by
  have hinsist : ∀ h o, Repeats ⟨0⟩ false (handle h o) (insist h o) := by
    intro h o
    refine .sees (fun w hw => ?_) fun w hw => ?_
    · rcases (w.store.state ⟨0⟩).pending_or_ofOutcome with ⟨ks, hks⟩ | ho
      · simp only [Store.isPending, hks, PromiseState.isPending, ↓reduceIte]
        exact .done _ o
      · exact absurd ho hw
    · obtain ⟨o', ho'⟩ := hw
      have hsettled : w.store.isPending ⟨0⟩ = false := by
        rw [Store.isPending, ho']
        cases o' <;> rfl
      simp only [hsettled, Bool.false_eq_true, ↓reduceIte]
      exact .again _ (.done _ o)
  have hroutine : Repeats ⟨0⟩ false routine persistent :=
    .first (fun _ h => by cases h) (.again _ (.fulfil _ _ (.done _ ())))
  have hflat : before.store.Flat := by
    rintro ⟨i⟩ o ho
    match i with
    | 0 => cases o <;> cases ho
    | 1 => cases o <;> cases ho
    | i + 2 => cases o <;> cases ho
  exact ⟨(later_fulfilment_ignored hinsist hroutine hflat Nat.zero_lt_two).2.1, _, by cbv, by cbv,
    by cbv⟩

namespace Overtaking

/-- A promise is given another one, which is pending, and that is given a value in the end. -/
def routine (further : PromiseId → Routine Nat Unit Unit → Routine Nat Unit Unit) :
    Routine Nat Unit Unit :=
  .new fun p => .new fun q =>
    .fulfil p (.ok (.promise q)) (further p (.fulfil q (.ok (.int 2)) (.done ())))

def outcome (r : Routine Nat Unit Unit) : Option Outcome :=
  (finalWorld (r.perform (fun _ o => .done o) 2 ⟨.empty, ()⟩)).store.outcome? ⟨0⟩

end Overtaking

/-- A promise that has been given another one, which is pending, is not settled by that, and a further
outcome that it is given is not ignored. -/
theorem adoption_overtaken :
    Overtaking.outcome (Overtaking.routine fun _ rest => rest) = some (.ok (.int 2)) ∧
    Overtaking.outcome (Overtaking.routine fun p rest => .fulfil p (.ok (.int 1)) rest) =
      some (.ok (.int 1)) := by
  constructor <;> cbv

end Deferral
