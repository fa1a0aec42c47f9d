import Deferral.Proofs.Eval.Private

/-!
# What becomes of a derived promise

A promise `q` has been derived from `p`: a handler is to be run on the outcome of `p`, and what comes of
it settles `q`. `Link.Phase` lists how far that can have come. As long as `p` is pending the handler
waits. The outcome of `p` has the handler run, once; its answer is the outcome of `q`, or `q` adopts the
promise that the answer is. The handler counts as started if it is given a value; many a handler passes
a failure on.

`Link.protocol` is the protocol behind that, beside another one that may be about the source: one lemma
for each step that can be taken.
-/

set_option autoImplicit false

namespace Deferral

/-- How a promise is derived from another, since when, and what is the case whenever the other one has a
value. -/
structure Link where
  context : Context
  origin : Machine
  source : PromiseId
  target : PromiseId
  handler : Handler
  ready : Machine → Prop

namespace Link

variable (L : Link)

/-- The handler has been run on the outcome of the source, with this answer and this machine at its
end. -/
def Ran (given answer : Outcome) (after m : Machine) : Prop :=
  ∃ before n, Evolves L.origin before ∧ before.store.outcome? L.source = some given ∧
    (∀ v, given = .ok v → L.ready before) ∧
    (engine L.context n).handle L.handler given before = .ok answer after ∧ Evolves after m

/-- How often the handler has been started once it has been run on an outcome. -/
def count : Outcome → Nat
  | .ok _ => 1
  | .error _ => 0

/-- What is given to the target for an answer: the answer, or what comes of it if it is a promise. -/
inductive Comes (answer : Outcome) (m : Machine) : Outcome → Prop
  | itself : Comes answer m answer
  | loop (h : answer = .ok (.promise L.target)) : Comes answer m (.error (.resolution .selfFulfilment))
  | through (s : PromiseId) {o : Outcome} (h : answer = .ok (.promise s)) (hs : s ≠ L.target)
      (ho : m.store.outcome? s = some o) : Comes answer m o

/-- The continuations that are to settle the target. -/
abbrev tokens (F : InFlight) (m : Machine) : InFlight :=
  held (Continuation.settles L.target) F m.store

/-- How far it has come with the target, after a number of starts of the handler. -/
inductive Phase (F : InFlight) (m : Machine) : Nat → Prop
  | waiting (htokens : L.tokens F m = {(L.source, .derive L.target L.handler)})
      (hpending : m.store.outcome? L.target = none) : Phase F m 0
  | adopting (given : Outcome) (s : PromiseId) (after : Machine)
      (hran : L.Ran given (.ok (.promise s)) after m) (hs : s ≠ L.target)
      (htokens : L.tokens F m = {(s, .adopt L.target)})
      (hpending : m.store.outcome? L.target = none) : Phase F m (count given)
  /-- The answer was a promise that had not been made. -/
  | lost (given : Outcome) (s : PromiseId) (after : Machine)
      (hran : L.Ran given (.ok (.promise s)) after m) (hs : ¬after.store.Has s)
      (htokens : L.tokens F m = 0) (hpending : m.store.outcome? L.target = none) :
      Phase F m (count given)
  | answered (given answer : Outcome) (after : Machine) (o : Outcome)
      (hran : L.Ran given answer after m) (hcomes : L.Comes answer m o) (ho : Concrete o)
      (htokens : L.tokens F m = 0) (htarget : m.store.outcome? L.target = some o) :
      Phase F m (count given)

/-- The target is about to be given the outcome. -/
inductive Owed (F : InFlight) (m : Machine) : Nat → Outcome → Prop
  | mk (given answer : Outcome) (after : Machine) (o : Outcome) (htokens : L.tokens F m = 0)
      (hpending : m.store.outcome? L.target = none) (hran : L.Ran given answer after m)
      (hcomes : L.Comes answer m o) : Owed F m (count given) o

variable {L} {F F' : InFlight} {d : Nat} {m m' : Machine} {p t s : PromiseId} {o given answer : Outcome}
  {after : Machine}

theorem Ran.evolves (h : L.Ran given answer after m) : Evolves after m := by
  obtain ⟨_, _, _, _, _, _, hafter⟩ := h
  exact hafter

theorem Ran.mono (h : L.Ran given answer after m) (he : Evolves m m') :
    L.Ran given answer after m' := by
  obtain ⟨before, n, horigin, hgiven, hready, hr, hafter⟩ := h
  exact ⟨before, n, horigin, hgiven, hready, hr, hafter.trans he⟩

theorem Comes.mono (h : L.Comes answer m o) (he : Evolves m m') : L.Comes answer m' o := by
  cases h with
  | itself => exact .itself
  | loop h => exact .loop h
  | through s h hs ho => exact .through s h hs (he.outcome? ho)

/-- A step that has nothing to do with the target. -/
theorem Phase.step (h : L.Phase F m d) (he : Evolves m m') (htokens : L.tokens F' m' = L.tokens F m)
    (htarget : m'.store.outcome? L.target = m.store.outcome? L.target) : L.Phase F' m' d := by
  cases h with
  | waiting ht hp => exact .waiting (htokens.trans ht) (htarget.trans hp)
  | adopting given s after hran hs ht hp =>
    exact .adopting given s after (hran.mono he) hs (htokens.trans ht) (htarget.trans hp)
  | lost given s after hran hs ht hp =>
    exact .lost given s after (hran.mono he) hs (htokens.trans ht) (htarget.trans hp)
  | answered given answer after o hran hcomes ho ht hq =>
    exact .answered given answer after o (hran.mono he) (hcomes.mono he) ho (htokens.trans ht)
      (htarget.trans hq)

/-! ## The protocol -/

variable (L) in
/-- The invariant of the link. -/
structure Inv (F : InFlight) (d : Nat) (m : Machine) : Prop where
  hidden : Private L.target none L.origin m
  source : m.store.Has L.source
  phase : L.Phase F m d

variable (L) in
/-- What it means for the link that a promise is about to be given an outcome. -/
structure Due (t : PromiseId) (o : Outcome) (F : InFlight) (d : Nat) (m : Machine) : Prop where
  hidden : Private L.target none L.origin m
  source : m.store.Has L.source
  phase : t ≠ L.target → L.Phase F m d
  owed : t = L.target → L.Owed F m d o

namespace Inv

theorem other (h : L.Inv F d m) (ht : t ≠ L.target) : L.Due t o F d m :=
  ⟨h.hidden, h.source, fun _ => h.phase, fun he => absurd he ht⟩

theorem passed (h : L.Inv F d m) (hpassed : Passed m m') : L.Inv F d m' :=
  ⟨h.hidden.passed hpassed, hpassed.evolves.has h.source, h.phase.step hpassed.evolves
    (h.hidden.held_passed F hpassed) (h.hidden.outcome?_passed hpassed)⟩

/-- A continuation in flight that is for something else. -/
theorem drop {k : Continuation Handler} (h : L.Inv ((p, k) ::ₘ F) d m)
    (hk : k.settles L.target = false) : L.Inv F d m :=
  ⟨h.hidden, h.source, h.phase.step .refl (held_cons_of_false hk).symm rfl⟩

/-- A continuation in flight that is to settle the target is the one that the phase knows. -/
theorem of_settles {k : Continuation Handler} (h : L.Inv ((p, k) ::ₘ F) d m)
    (hk : k.settles L.target = true) :
    L.tokens F m = 0 ∧ m.store.outcome? L.target = none ∧
      ((d = 0 ∧ p = L.source ∧ k = .derive L.target L.handler) ∨
        (k = .adopt L.target ∧ p ≠ L.target ∧
          ∃ given after, d = count given ∧ L.Ran given (.ok (.promise p)) after m)) := by
  have hcons : L.tokens ((p, k) ::ₘ F) m = (p, k) ::ₘ L.tokens F m := held_cons_of_true hk
  have hsingle : ∀ e, L.tokens ((p, k) ::ₘ F) m = {e} → L.tokens F m = 0 ∧ (p, k) = e := by
    intro e he
    rw [hcons, ← Multiset.cons_zero] at he
    rcases Multiset.cons_eq_cons.1 he with ⟨hpk, hrest⟩ | ⟨_, _, _, hzero⟩
    · exact ⟨hrest, hpk⟩
    · exact absurd hzero Multiset.zero_ne_cons
  have hnone : L.tokens ((p, k) ::ₘ F) m ≠ 0 := by
    rw [hcons]
    exact Multiset.cons_ne_zero
  cases h.phase with
  | waiting ht hp =>
    obtain ⟨hrest, hpk⟩ := hsingle _ ht
    obtain ⟨rfl, rfl⟩ := Prod.mk.inj hpk
    exact ⟨hrest, hp, .inl ⟨rfl, rfl, rfl⟩⟩
  | adopting given s after hran hs ht hp =>
    obtain ⟨hrest, hpk⟩ := hsingle _ ht
    obtain ⟨rfl, rfl⟩ := Prod.mk.inj hpk
    exact ⟨hrest, hp, .inr ⟨rfl, hs, given, after, rfl, hran⟩⟩
  | lost given s after hran hs ht => exact absurd ht hnone
  | answered given answer after o hran hcomes ho ht => exact absurd ht hnone

theorem adopt (h : L.Inv ((p, .adopt t) ::ₘ F) d m) (ho : m.store.outcome? p = some o) :
    L.Due t o F d m := by
  by_cases ht : t = L.target
  · subst ht
    obtain ⟨hrest, hpending, ⟨-, -, hk⟩ | ⟨-, hp, given, after, rfl, hran⟩⟩ :=
      h.of_settles (beq_self_eq_true _)
    · cases hk
    · exact ⟨h.hidden, h.source, fun hne => absurd rfl hne,
        fun _ => .mk given _ after o hrest hpending hran (.through p rfl hp ho)⟩
  · exact (h.drop (beq_false_of_ne ht)).other ht

theorem derive {handler : Handler} {n : Nat} (h : L.Inv ((p, .derive t handler) ::ₘ F) d m)
    (hready : ∀ v, m.store.outcome? L.source = some (.ok v) → L.ready m)
    (ho : m.store.outcome? p = some o) (hr : (engine L.context n).handle handler o m = .ok answer m')
    (hpassed : Passed m m') :
    L.Due t answer F (if starts L.target (.derive t handler) o then d + 1 else d) m' := by
  by_cases ht : t = L.target
  · subst ht
    obtain ⟨hrest, hpending, ⟨rfl, rfl, hk⟩ | ⟨hk, -⟩⟩ := h.of_settles (beq_self_eq_true _)
    · injection hk with _ hhandler
      subst hhandler
      have hrest' : L.tokens F m' = 0 := (h.hidden.held_passed F hpassed).trans hrest
      have hpending' : m'.store.outcome? L.target = none :=
        (h.hidden.outcome?_passed hpassed).trans hpending
      have hcount : (if starts L.target (.derive L.target L.handler) o then 0 + 1 else 0) = count o := by
        cases o <;> simp [starts, count]
      refine ⟨h.hidden.passed hpassed, hpassed.evolves.has h.source, fun hne => absurd rfl hne,
        fun _ => ?_⟩
      rw [hcount]
      exact .mk o answer m' answer hrest' hpending'
        ⟨m, n, h.hidden.evolves, ho, fun v hv => hready v (hv ▸ ho), hr, .refl⟩ .itself
    · cases hk
  · have hstarts : starts L.target (.derive t handler) o = false := by
      cases o with
      | ok v => exact beq_false_of_ne ht
      | error e => rfl
    rw [if_neg (by simp [hstarts])]
    exact ((h.drop (beq_false_of_ne ht)).passed hpassed).other ht

theorem record (h : L.Inv F d m) (id : GatherId) (i : Nat) (o : Outcome) :
    L.Inv F d (m.withStore (m.store.record id i o).2) :=
  ⟨h.hidden.record id i o, Change.has (.recorded m id i o) h.source,
    h.phase.step (.single (.recorded m id i o)) (held_congr (Store.waits_record ..))
      (Store.outcome?_record ..)⟩

theorem gather {id : GatherId} {i : Nat} (h : L.Inv ((p, .gather id i) ::ₘ F) d m) :
    match (m.store.record id i o).1 with
    | none => L.Inv F d (m.withStore (m.store.record id i o).2)
    | some (t, combined) => L.Due t combined F d (m.withStore (m.store.record id i o).2) := by
  have hrecord := (h.drop rfl).record id i o
  cases hanswer : (m.store.record id i o).1 with
  | none => exact hrecord
  | some answer => exact hrecord.other (h.hidden.ne_of_record nofun hanswer)

theorem register {k : Continuation Handler} {ks : List (Continuation Handler)}
    (h : L.Inv ((p, k) ::ₘ F) d m) (hks : m.store.state p = .pending ks) :
    L.Inv F d (m.withStore (m.store.setState p (.pending (ks ++ [k])))) := by
  have hhidden := h.hidden.register hks k
  have hsource : (m.store.setState p (.pending (ks ++ [k]))).Has L.source :=
    Store.has_setState.2 h.source
  have htarget := Store.outcome?_register_eq (k := k) hks L.target
  by_cases hp : m.store.Has p
  · exact ⟨hhidden, hsource, h.phase.step (evolves_register hks k) (held_register hp hks) htarget⟩
  · -- nothing can wait for a promise that has not been made
    have hstore : m.store.setState p (.pending (ks ++ [k])) = m.store :=
      Store.setState_of_not_has hp _
    rw [hstore] at hhidden hsource ⊢
    by_cases hk : k.settles L.target = true
    · obtain ⟨hrest, hpending, ⟨-, rfl, -⟩ | ⟨-, -, given, after, rfl, hran⟩⟩ := h.of_settles hk
      · exact absurd h.source hp
      · exact ⟨hhidden, hsource,
          .lost given p after hran (fun hhas => hp (hran.evolves.has hhas)) hrest hpending⟩
    · exact h.drop (by simpa using hk)

end Inv

namespace Due

theorem settle {ks : List (Continuation Handler)} (h : L.Due t o F d m) (ho : Concrete o)
    (hks : m.store.state t = .pending ks) :
    L.Inv (Continuation.awaiting t ks + F) d
      (m.withStore (m.store.setState t (.ofOutcome o))) := by
  have hhidden := h.hidden.settle hks ho
  have hsource : (m.store.setState t (.ofOutcome o)).Has L.source := Store.has_setState.2 h.source
  have hevolves := evolves_settle hks ho
  have htokens : L.tokens (Continuation.awaiting t ks + F)
      (m.withStore (m.store.setState t (.ofOutcome o))) = L.tokens F m := held_settle hks o
  by_cases ht : t = L.target
  · subst ht
    have htarget : (m.store.setState L.target (.ofOutcome o)).outcome? L.target = some o :=
      Store.outcome?_setState_self h.hidden.has o
    refine ⟨hhidden, hsource, ?_⟩
    cases h.owed rfl with
    | mk given answer after _ ht hp hran hcomes =>
      exact .answered given answer after o (hran.mono hevolves) (hcomes.mono hevolves) ho
        (htokens.trans ht) htarget
  · have htarget : (m.store.setState t (.ofOutcome o)).outcome? L.target =
        m.store.outcome? L.target := Store.outcome?_setState_ne (Ne.symm ht)
    exact ⟨hhidden, hsource, (h.phase ht).step hevolves htokens htarget⟩

theorem settled {o' : Outcome} (h : L.Due t o F d m) (ho : m.store.outcome? t = some o') :
    L.Inv F d m := by
  by_cases ht : t = L.target
  · subst ht
    cases h.owed rfl with
    | mk _ _ _ _ _ hp => cases hp.symm.trans ho
  · exact ⟨h.hidden, h.source, h.phase ht⟩

/-- What is known of an answer that is a promise. -/
theorem of_promise (h : L.Due L.target (.ok (.promise s)) F d m) :
    L.tokens F m = 0 ∧ m.store.outcome? L.target = none ∧
      ∃ given after, d = count given ∧ L.Ran given (.ok (.promise s)) after m := by
  generalize ho : (.ok (.promise s) : Outcome) = o at h
  cases h.owed rfl with
  | mk given answer after _ ht hp hran hcomes =>
    cases hcomes with
    | itself => exact ⟨ht, hp, given, after, rfl, ho ▸ hran⟩
    | loop => cases ho
    | through r _ _ hr =>
      -- no promise holds a promise
      exact absurd ho.symm (h.hidden.flat.concrete hr s)

theorem self (h : L.Due t (.ok (.promise t)) F d m) :
    L.Due t (.error (.resolution .selfFulfilment)) F d m := by
  refine ⟨h.hidden, h.source, h.phase, fun ht => ?_⟩
  subst ht
  obtain ⟨htokens, hpending, given, after, rfl, hran⟩ := h.of_promise
  exact .mk given _ after _ htokens hpending hran (.loop rfl)

theorem adopts (h : L.Due t (.ok (.promise s)) F d m) (hs : s ≠ t) :
    L.Inv ((s, .adopt t) ::ₘ F) d m := by
  refine ⟨h.hidden, h.source, ?_⟩
  by_cases ht : t = L.target
  · subst ht
    obtain ⟨htokens, hpending, given, after, rfl, hran⟩ := h.of_promise
    have hk : (Continuation.adopt L.target : Continuation Handler).settles L.target = true :=
      beq_self_eq_true L.target
    refine .adopting given s after hran hs ?_ hpending
    rw [Link.tokens, held_cons_of_true hk]
    exact congrArg ((s, .adopt L.target) ::ₘ ·) htokens
  · exact (h.phase ht).step .refl (held_cons_of_false (beq_false_of_ne ht)) rfl

end Due

variable (L) in
/-- The link keeps its invariant, beside a protocol by which it is ready whenever the source has a
value. -/
def protocol (P : Protocol L.context L.target)
    (hready : ∀ {F d m v}, P.Inv F d m → m.store.outcome? L.source = some (.ok v) → L.ready m) :
    Protocol L.context L.target where
  Inv F d m := L.Inv F d m ∧ P.Inv F d m
  Due t o F d m := L.Due t o F d m ∧ P.Due t o F d m
  passed h hpassed := ⟨h.1.passed hpassed, P.passed h.2 hpassed⟩
  adopt h ho := ⟨h.1.adopt ho, P.adopt h.2 ho⟩
  derive h ho hr hpassed :=
    ⟨h.1.derive (fun _ => hready h.2) ho hr hpassed, P.derive h.2 ho hr hpassed⟩
  notify h := ⟨h.1.drop rfl, P.notify h.2⟩
  gather {F d m p id i o} h ho := by
    have hlink := h.1.gather (o := o)
    have hrest := P.gather h.2 ho
    cases hanswer : (m.store.record id i o).1 with
    | none =>
      rw [hanswer] at hlink hrest
      exact ⟨hlink, hrest⟩
    | some answer =>
      rw [hanswer] at hlink hrest
      exact ⟨hlink, hrest⟩
  settle h ho hks := ⟨h.1.settle ho hks, P.settle h.2 ho hks⟩
  settled h ho := ⟨h.1.settled ho, P.settled h.2 ho⟩
  self h := ⟨h.1.self, P.self h.2⟩
  adopts h hs := ⟨h.1.adopts hs, P.adopts h.2 hs⟩
  register h hks := ⟨h.1.register hks, P.register h.2 hks⟩
  Own t := t = L.target ∨ P.Own t
  give h ht := ⟨h.1.other fun he => ht (.inl he), P.give h.2 fun ho => ht (.inr ho)⟩
  tasks h task htask ho := ho.elim (h.1.hidden.tasks task htask) (P.tasks h.2 task htask)
  dequeue h hqueue := ⟨⟨h.1.hidden.dequeue hqueue, h.1.source,
    h.1.phase.step (.single (.queue ..)) rfl rfl⟩, P.dequeue h.2 hqueue⟩

theorem counts {P : Protocol L.context L.target}
    {hready : ∀ {F d m v}, P.Inv F d m → m.store.outcome? L.source = some (.ok v) → L.ready m} :
    (L.protocol P hready).Counts := fun _ _ _ h => h.1.hidden.has

end Link

end Deferral
