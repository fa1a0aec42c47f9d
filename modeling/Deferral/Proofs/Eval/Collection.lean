import Deferral.Proofs.Eval.Private

/-!
# What becomes of a gather

A gather has been started for operands, of which some are promises, and its result is a promise for
the tuple of their values. `Collection.Phase` lists how far that can have come: values are still missing,
each of them with a continuation that is to bring it, or the result has its outcome. That outcome is the
tuple of what the operands stand for, each in its place, or the error of an operand that has failed.

`Collection.protocol` is the protocol behind that. Nothing is started along the way, so any promise may
be observed with it.
-/

set_option autoImplicit false

namespace Deferral

/-- What an operand stands for at this moment, if it is there: the outcome of a promise, and any other
value itself. -/
def Store.operand? (s : Store Handler) : Value → Option Outcome
  | .promise p => s.outcome? p
  | v => some (.ok v)

/-- The operands stand for these values at this moment. -/
abbrev Store.Holds (s : Store Handler) : List Value → List Value → Prop :=
  List.Forall₂ fun v w => s.operand? v = some (.ok w)

theorem Evolves.operand? {m m' : Machine} (h : Evolves m m') {v : Value} {o : Outcome}
    (hv : m.store.operand? v = some o) : m'.store.operand? v = some o := by
  cases v with
  | promise p => exact h.outcome? hv
  | _ => exact hv

theorem Evolves.holds {m m' : Machine} (h : Evolves m m') {operands values : List Value}
    (hv : m.store.Holds operands values) : m'.store.Holds operands values :=
  hv.imp fun _ _ => h.operand?

/-- A gather with its operands, and since when it has been there. -/
structure Collection where
  origin : Machine
  id : GatherId
  result : PromiseId
  operands : List Value

namespace Collection

variable (C : Collection)

/-- The continuations that are to bring operands. -/
abbrev tokens (F : InFlight) (m : Machine) : InFlight := held (Continuation.brings C.id) F m.store

/-- The gather has the values of its operands, but for those that are under way. -/
structure Collects (under : InFlight) (g : Gather) (m : Machine) : Prop where
  length : g.values.length = C.operands.length
  remaining : g.remaining = under.card
  place : ∀ p k, (p, k) ∈ under → ∃ i, k = .gather C.id i ∧ C.operands[i]? = some (.promise p)
  filled : ∀ (i : Nat) (v : Value), C.operands[i]? = some v → (∃ p, (p, .gather C.id i) ∈ under) ∨
    ∃ w, g.values[i]? = some w ∧ m.store.operand? v = some (.ok w)

/-- What comes of the operands: all values in their places, or a failure. -/
inductive Gives (m : Machine) : Outcome → Prop
  | all (values : List Value) (h : m.store.Holds C.operands values) : Gives m (.ok (.tuple values))
  | failure (p : PromiseId) (e : Error) (hp : .promise p ∈ C.operands)
      (he : m.store.outcome? p = some (.error e)) : Gives m (.error e)

/-- How far it has come with the gather. -/
inductive Phase (F : InFlight) (m : Machine) : Prop
  | gathering (g : Gather) (hg : m.store.gathers[C.id.index]? = some g) (hresult : g.result = C.result)
      (hdone : g.done = false) (hcollects : C.Collects (C.tokens F m) g m)
      (hmissing : C.tokens F m ≠ 0) (hpending : m.store.outcome? C.result = none)
  | gathered (g : Gather) (o : Outcome) (hg : m.store.gathers[C.id.index]? = some g)
      (hdone : g.done = true) (hgives : C.Gives m o) (hresult : m.store.outcome? C.result = some o)

/-- The result is about to be given the outcome. -/
structure Owed (m : Machine) (o : Outcome) : Prop where
  done : ∃ g, m.store.gathers[C.id.index]? = some g ∧ g.done = true
  gives : C.Gives m o
  pending : m.store.outcome? C.result = none

variable {C} {F F' : InFlight} {m m' : Machine} {p t s : PromiseId} {o : Outcome} {g : Gather}
  {under : InFlight}

theorem Gives.mono (h : C.Gives m o) (he : Evolves m m') : C.Gives m' o := by
  cases h with
  | all values h => exact .all values (he.holds h)
  | failure p e hp h => exact .failure p e hp (he.outcome? h)

theorem Gives.concrete (h : C.Gives m o) : Concrete o := by
  cases h with
  | all values => exact fun q hq => by cases hq
  | failure p e => exact concrete_error e

theorem Collects.mono (h : C.Collects under g m) (he : Evolves m m') : C.Collects under g m' :=
  ⟨h.length, h.remaining, h.place, fun i v hv =>
    (h.filled i v hv).imp_right fun ⟨w, hw, hs⟩ => ⟨w, hw, he.operand? hs⟩⟩

/-- A step that has nothing to do with the gather. -/
theorem Phase.step (h : C.Phase F m) (he : Evolves m m') (htokens : C.tokens F' m' = C.tokens F m)
    (hgather : m'.store.gathers[C.id.index]? = m.store.gathers[C.id.index]?)
    (hresult : m'.store.outcome? C.result = m.store.outcome? C.result) : C.Phase F' m' := by
  cases h with
  | gathering g hg hr hdone hcollects hmissing hpending =>
    rw [← htokens] at hcollects hmissing
    exact .gathering g (hgather.trans hg) hr hdone (hcollects.mono he) hmissing (hresult.trans hpending)
  | gathered g o hg hdone hgives ho =>
    exact .gathered g o (hgather.trans hg) hdone (hgives.mono he) (hresult.trans ho)

/-! ## An operand comes in -/

/-- The value of an operand is put in its place. -/
theorem Collects.fill {i : Nat} {v : Value} (h : C.Collects ((p, .gather C.id i) ::ₘ under) g m)
    (hv : m.store.outcome? p = some (.ok v)) (done : Bool) :
    C.Collects under { g with values := g.values.set i v, remaining := g.remaining - 1, done } m where
  length := by rw [List.length_set, h.length]
  remaining := by
    rw [h.remaining, Multiset.card_cons]
    rfl
  place q k hq := h.place q k (Multiset.mem_cons_of_mem hq)
  filled j u hu := by
    obtain ⟨i', hi', hplace⟩ := h.place p _ (Multiset.mem_cons_self ..)
    injection hi' with _ hi'
    subst hi'
    by_cases hji : j = i
    · subst hji
      have hlt : j < g.values.length := h.length ▸ (List.getElem?_eq_some_iff.1 hplace).1
      refine .inr ⟨v, by rw [List.getElem?_set_self hlt], ?_⟩
      rw [Option.some.inj (hu.symm.trans hplace)]
      exact hv
    · rw [List.getElem?_set_ne fun he => hji he.symm]
      refine (h.filled j u hu).imp_left fun ⟨q, hq⟩ => ⟨q, ?_⟩
      rcases Multiset.mem_cons.1 hq with he | hq
      · injection he with _ he
        injection he with _ he
        exact absurd he hji
      · exact hq

/-- If nothing is missing, the tuple is there. -/
theorem Collects.gives (h : C.Collects 0 g m) : C.Gives m (.ok (.tuple g.values)) := by
  refine .all _ (List.forall₂_iff_get.2 ⟨h.length.symm, fun i hi hi' => ?_⟩)
  rcases h.filled i _ (List.getElem?_eq_getElem hi) with ⟨q, hq⟩ | ⟨w, hw, hs⟩
  · exact absurd hq (Multiset.notMem_zero _)
  · rw [List.getElem?_eq_getElem hi'] at hw
    rw [List.get_eq_getElem, List.get_eq_getElem, Option.some.inj hw]
    exact hs

/-! ## The protocol -/

variable (C) in
/-- What always holds of a gather that is in nobody else's hands. -/
structure Base (F : InFlight) (m : Machine) : Prop where
  hidden : Private C.result (some C.id) C.origin m
  sources : ∀ p, .promise p ∈ C.operands → m.store.Has p
  started : C.id.index < m.store.gathers.size
  settlers : held (Continuation.settles C.result) F m.store = 0

variable (C) in
/-- The invariant of the gather. -/
structure Inv (F : InFlight) (m : Machine) : Prop extends C.Base F m where
  phase : C.Phase F m

variable (C) in
/-- What it means for the gather that a promise is about to be given an outcome. -/
structure Due (t : PromiseId) (o : Outcome) (F : InFlight) (m : Machine) : Prop extends C.Base F m where
  phase : t ≠ C.result → C.Phase F m
  owed : t = C.result → C.Owed m o

theorem held_passed (h : C.id.index < m.store.gathers.size) (F : InFlight) (hpassed : Passed m m') :
    C.tokens F m' = C.tokens F m := by
  refine held_grown hpassed.grown.store hpassed.fenced fun k hk => ?_
  cases k with
  | gather id i =>
    refine beq_false_of_ne ?_
    rintro rfl
    exact absurd h (Nat.not_lt.2 hk.1)
  | _ => rfl

theorem gather_passed (h : C.id.index < m.store.gathers.size) (hpassed : Passed m m') :
    m'.store.gathers[C.id.index]? = m.store.gathers[C.id.index]? :=
  hpassed.grown.store.kept _ h

namespace Base

/-- No continuation in flight is to settle the result. -/
theorem not_settles {k : Continuation Handler} (h : C.Base ((p, k) ::ₘ F) m) :
    k.settles C.result = false := by
  by_contra hk
  have hnone := h.settlers
  rw [held_cons_of_true (by simpa using hk)] at hnone
  exact Multiset.cons_ne_zero hnone

theorem drop {k : Continuation Handler} (h : C.Base ((p, k) ::ₘ F) m) : C.Base F m :=
  ⟨h.hidden, h.sources, h.started, (held_cons_of_false h.not_settles).symm.trans h.settlers⟩

theorem passed (h : C.Base F m) (hpassed : Passed m m') : C.Base F m' :=
  ⟨h.hidden.passed hpassed, fun p hp => hpassed.evolves.has (h.sources p hp),
    Nat.lt_of_lt_of_le h.started hpassed.grown.store.gathers,
    (h.hidden.held_passed F hpassed).trans h.settlers⟩

theorem settle {ks : List (Continuation Handler)} (h : C.Base F m) (ho : Concrete o)
    (hks : m.store.state t = .pending ks) :
    C.Base (Continuation.awaiting t ks + F) (m.withStore (m.store.setState t (.ofOutcome o))) :=
  ⟨h.hidden.settle hks ho, fun p hp => Store.has_setState.2 (h.sources p hp), h.started,
    (held_settle hks o).trans h.settlers⟩

theorem register {k : Continuation Handler} {ks : List (Continuation Handler)}
    (h : C.Base ((p, k) ::ₘ F) m) (hks : m.store.state p = .pending ks) :
    C.Base F (m.withStore (m.store.setState p (.pending (ks ++ [k])))) :=
  ⟨h.hidden.register hks k, fun p hp => Store.has_setState.2 (h.sources p hp), h.started,
    (held_register_of_false h.not_settles hks).trans h.drop.settlers⟩

theorem record (h : C.Base F m) (id : GatherId) (i : Nat) (o : Outcome) :
    C.Base F (m.withStore (m.store.record id i o).2) := by
  refine ⟨h.hidden.record id i o, fun p hp => Store.has_record.2 (h.sources p hp), ?_,
    (held_congr (Store.waits_record ..)).trans h.settlers⟩
  rcases Store.record_cases id i o m.store with ⟨-, hs⟩ | ⟨g, -, hs⟩
  · rw [hs]
    exact h.started
  · rw [hs]
    simpa [Machine.withStore] using h.started

end Base

namespace Inv

theorem other (h : C.Inv F m) (ht : t ≠ C.result) : C.Due t o F m :=
  ⟨h.toBase, fun _ => h.phase, fun he => absurd he ht⟩

theorem passed (h : C.Inv F m) (hpassed : Passed m m') : C.Inv F m' :=
  ⟨h.toBase.passed hpassed, h.phase.step hpassed.evolves (held_passed h.started F hpassed)
    (gather_passed h.started hpassed) (h.hidden.outcome?_passed hpassed)⟩

/-- A continuation in flight that brings nothing to the gather. -/
theorem drop {k : Continuation Handler} (h : C.Inv ((p, k) ::ₘ F) m) (hk : k.brings C.id = false) :
    C.Inv F m :=
  ⟨h.toBase.drop, h.phase.step .refl (held_cons_of_false hk).symm rfl rfl⟩

theorem adopt (h : C.Inv ((p, .adopt t) ::ₘ F) m) : C.Due t o F m :=
  (h.drop rfl).other (ne_of_beq_false h.not_settles)

theorem derive {handler : Handler} (h : C.Inv ((p, .derive t handler) ::ₘ F) m)
    (hpassed : Passed m m') : C.Due t o F m' :=
  ((h.drop rfl).passed hpassed).other (ne_of_beq_false h.not_settles)

theorem register {k : Continuation Handler} {ks : List (Continuation Handler)}
    (h : C.Inv ((p, k) ::ₘ F) m) (hks : m.store.state p = .pending ks) :
    C.Inv F (m.withStore (m.store.setState p (.pending (ks ++ [k])))) := by
  refine ⟨h.toBase.register hks, ?_⟩
  have hevolves := evolves_register hks k
  have hresult := Store.outcome?_register_eq (k := k) hks C.result
  by_cases hk : k.brings C.id = true
  · cases h.phase with
    | gathering g hg hr hdone hcollects hmissing hpending =>
      have hmem : (p, k) ∈ C.tokens ((p, k) ::ₘ F) m := by
        rw [tokens, held_cons_of_true hk]
        exact Multiset.mem_cons_self ..
      obtain ⟨i, -, hi⟩ := hcollects.place p k hmem
      have hp : m.store.Has p := h.sources p (List.mem_of_getElem? hi)
      exact h.phase.step hevolves (held_register hp hks) rfl hresult
    | gathered g o hg hdone hgives ho =>
      exact .gathered g o hg hdone (hgives.mono hevolves) (hresult.trans ho)
  · have hk : k.brings C.id = false := by simpa using hk
    exact (h.drop hk).phase.step hevolves (held_register_of_false hk hks) rfl hresult

/-- An outcome is put into another gather. -/
theorem record (h : C.Inv F m) {id : GatherId} (hid : id ≠ C.id) (i : Nat) (o : Outcome) :
    C.Inv F (m.withStore (m.store.record id i o).2) := by
  refine ⟨h.toBase.record id i o, h.phase.step (.single (.recorded m id i o))
    (held_congr (Store.waits_record ..)) ?_ ?_⟩
  · rcases Store.record_cases id i o m.store with ⟨-, hs⟩ | ⟨g, -, hs⟩
    · rw [hs]
      rfl
    · have hne : id.index ≠ C.id.index := fun he => hid (congrArg GatherId.mk he)
      rw [hs]
      exact Array.getElem?_setIfInBounds_ne hne
  · exact Store.outcome?_record ..

/-- What is left of the gather after an outcome has been put into it. -/
theorem record_own (hg : m.store.gathers[C.id.index]? = some g) {i : Nat} {g' : Gather}
    {combined : Option Outcome} (hrecord : g.record i o = (g', combined)) :
    (m.store.record C.id i o).1 = combined.map (fun c => (g'.result, c)) ∧
      (m.withStore (m.store.record C.id i o).2).store.gathers[C.id.index]? = some g' := by
  rcases Store.record_cases C.id i o m.store with ⟨hnone, -⟩ | ⟨found, hfound, hs⟩
  · rw [hg] at hnone
    cases hnone
  · obtain rfl := Option.some.inj (hfound.symm.trans hg)
    rw [hs, hrecord]
    exact ⟨rfl, Array.getElem?_setIfInBounds_self_of_lt (Array.getElem?_eq_some_iff.1 hg).1⟩

/-- An operand comes in. The last one, and the first failure, decide. -/
theorem gather_own {i : Nat} (h : C.Inv ((p, .gather C.id i) ::ₘ F) m)
    (ho : m.store.outcome? p = some o) :
    match (m.store.record C.id i o).1 with
    | none => C.Inv F (m.withStore (m.store.record C.id i o).2)
    | some (t, combined) => C.Due t combined F (m.withStore (m.store.record C.id i o).2) := by
  have hbase := h.toBase.drop.record C.id i o
  have hevolves : Evolves m (m.withStore (m.store.record C.id i o).2) :=
    .single (.recorded m C.id i o)
  have htokens : C.tokens F (m.withStore (m.store.record C.id i o).2) = C.tokens F m :=
    held_congr (Store.waits_record ..)
  have hresult : (m.withStore (m.store.record C.id i o).2).store.outcome? C.result =
      m.store.outcome? C.result := Store.outcome?_record ..
  cases h.phase with
  | gathered g o' hg hdone hgives ho' =>
    obtain ⟨hnone, hself⟩ := record_own hg (g.record_of_done i hdone o)
    rw [hnone]
    exact ⟨hbase, .gathered g o' hself hdone (hgives.mono hevolves) (hresult.trans ho')⟩
  | gathering g hg hr hdone hcollects hmissing hpending =>
    have hbrings : (Continuation.gather C.id i : Continuation Handler).brings C.id = true :=
      beq_self_eq_true C.id
    have hcons : C.tokens ((p, .gather C.id i) ::ₘ F) m = (p, .gather C.id i) ::ₘ C.tokens F m :=
      held_cons_of_true hbrings
    rw [hcons] at hcollects
    -- the result is owed what the operands give
    have howed : ∀ {g' : Gather} {c : Outcome}, g.record i o = (g', some c) →
        g'.result = g.result → g'.done = true → C.Gives m c →
        match (m.store.record C.id i o).1 with
        | none => C.Inv F (m.withStore (m.store.record C.id i o).2)
        | some (t, combined) => C.Due t combined F (m.withStore (m.store.record C.id i o).2) := by
      intro g' c hrecord hsame hdone' hgives
      obtain ⟨hanswer, hself⟩ := record_own hg hrecord
      rw [hanswer]
      refine ⟨hbase, fun hne => absurd (hsame.trans hr) hne, fun _ => ⟨⟨g', hself, hdone'⟩,
        hgives.mono hevolves, hresult.trans hpending⟩⟩
    cases o with
    | error e =>
      obtain ⟨_, -, hplace⟩ := hcollects.place p _ (Multiset.mem_cons_self ..)
      exact howed (g.record_error i hdone e) rfl rfl
        (.failure p e (List.mem_of_getElem? hplace) ho)
    | ok v =>
      by_cases hlast : g.remaining - 1 = 0
      · have hfilled := hcollects.fill ho true
        have hnone : C.tokens F m = 0 := Multiset.card_eq_zero.1 (hfilled.remaining.symm.trans hlast)
        rw [hnone] at hfilled
        exact howed (g.record_last i hdone hlast v) rfl rfl hfilled.gives
      · have hfilled := hcollects.fill ho false
        have hmore : C.tokens F m ≠ 0 := fun hnone => hlast (by
          rw [hnone] at hfilled
          exact hfilled.remaining)
        obtain ⟨hanswer, hself⟩ := record_own hg (g.record_more i hdone hlast v)
        rw [hanswer]
        refine ⟨hbase, .gathering _ hself hr rfl ?_ ?_ (hresult.trans hpending)⟩
        · rw [htokens]
          exact hfilled.mono hevolves
        · rw [htokens]
          exact hmore

theorem gather {id : GatherId} {i : Nat} (h : C.Inv ((p, .gather id i) ::ₘ F) m)
    (ho : m.store.outcome? p = some o) :
    match (m.store.record id i o).1 with
    | none => C.Inv F (m.withStore (m.store.record id i o).2)
    | some (t, combined) => C.Due t combined F (m.withStore (m.store.record id i o).2) := by
  by_cases hid : id = C.id
  · subst hid
    exact h.gather_own ho
  · have hrecord := (h.drop (beq_false_of_ne hid)).record hid i o
    cases hanswer : (m.store.record id i o).1 with
    | none => exact hrecord
    | some answer =>
      exact hrecord.other (h.hidden.ne_of_record (fun he => hid (Option.some.inj he).symm) hanswer)

end Inv

namespace Due

theorem settle {ks : List (Continuation Handler)} (h : C.Due t o F m) (ho : Concrete o)
    (hks : m.store.state t = .pending ks) :
    C.Inv (Continuation.awaiting t ks + F) (m.withStore (m.store.setState t (.ofOutcome o))) := by
  refine ⟨h.toBase.settle ho hks, ?_⟩
  have hevolves := evolves_settle hks ho
  by_cases ht : t = C.result
  · subst ht
    obtain ⟨⟨g, hg, hdone⟩, hgives, -⟩ := h.owed rfl
    refine .gathered g o hg hdone (hgives.mono hevolves) ?_
    exact Store.outcome?_setState_self h.hidden.has o
  · refine (h.phase ht).step hevolves (held_settle hks o) rfl ?_
    exact Store.outcome?_setState_ne (Ne.symm ht)

theorem settled {o' : Outcome} (h : C.Due t o F m) (ho : m.store.outcome? t = some o') :
    C.Inv F m := by
  refine ⟨h.toBase, h.phase ?_⟩
  rintro rfl
  rw [(h.owed rfl).pending] at ho
  cases ho

/-- The result is never given a promise. -/
theorem ne_of_promise (h : C.Due t (.ok (.promise s)) F m) : t ≠ C.result :=
  fun ht => (h.owed ht).gives.concrete s rfl

theorem self (h : C.Due t (.ok (.promise t)) F m) :
    C.Due t (.error (.resolution .selfFulfilment)) F m :=
  ⟨h.toBase, h.phase, fun ht => absurd ht h.ne_of_promise⟩

theorem adopts (h : C.Due t (.ok (.promise s)) F m) : C.Inv ((s, .adopt t) ::ₘ F) m := by
  have ht := h.ne_of_promise
  have hk : (Continuation.adopt t : Continuation Handler).settles C.result = false :=
    beq_false_of_ne ht
  exact ⟨⟨h.hidden, h.sources, h.started, (held_cons_of_false hk).trans h.settlers⟩,
    (h.phase ht).step .refl (held_cons_of_false rfl) rfl rfl⟩

end Due

variable (C) in
/-- A gather keeps its invariant. -/
def protocol (context : Context) (q : PromiseId) : Protocol context q where
  Inv F _ m := C.Inv F m
  Due t o F _ m := C.Due t o F m
  passed := Inv.passed
  adopt h _ := h.adopt
  derive h _ _ hpassed := h.derive hpassed
  notify h := h.drop rfl
  gather := Inv.gather
  settle := Due.settle
  settled := Due.settled
  self := Due.self
  adopts h _ := h.adopts
  register := Inv.register
  Own t := t = C.result
  give h ht := h.other ht
  tasks h := h.hidden.tasks
  dequeue h hqueue := ⟨⟨h.hidden.dequeue hqueue, h.sources, h.started, h.settlers⟩,
    h.phase.step (.single (.queue ..)) rfl rfl rfl⟩

end Collection

end Deferral
