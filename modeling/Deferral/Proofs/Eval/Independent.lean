import Deferral.Proofs.Eval.Completion
import Deferral.Proofs.Eval.Lifting

/-!
# Gathers over operands that do not depend on each other

Between two turns of a host a gather waits, or has the tuple of all values, or has failed
(`Collection.Inv.between`). Two more facts make out which failure that is. While the gather is registered
with its operands, those that are there are recorded one after the other, so the first one that has
failed is the failure of the gather (`Collection.Inv.watch_failure`). And in a turn in which no more than
one operand is settled, that one is the failure of the gather if it fails, because no other can have
failed (`Promise.all_independent`).
-/

set_option autoImplicit false

namespace Deferral

namespace Store

variable (s : Store Handler) (operands : List Value)

/-- No operand has failed. -/
def Intact : Prop := ∀ p e, .promise p ∈ operands → s.outcome? p ≠ some (.error e)

/-- An operand is not there yet. -/
def Missing : Prop := ∃ p, .promise p ∈ operands ∧ s.outcome? p = none

/-- The first operand that has failed has failed with the error. -/
def FirstFailure (e : Error) : Prop := ∃ front p back, operands = front ++ .promise p :: back ∧
  s.Intact front ∧ s.outcome? p = some (.error e)

/-- No more than one operand has been settled from one store to the other. -/
def OneSettled (s' : Store Handler) : Prop := ∀ p q, .promise p ∈ operands → .promise q ∈ operands →
  s.outcome? p = none → s.outcome? q = none → s'.outcome? p ≠ none → s'.outcome? q ≠ none → p = q

end Store

/-! ## The first failure among the operands -/

theorem Promise.places_append (i : Nat) (xs ys : List Value) :
    places i (xs ++ ys) = places i xs ++ places (i + xs.length) ys := by
  induction xs generalizing i with
  | nil => rfl
  | cons x xs ih =>
    have hlength : i + 1 + xs.length = i + (xs.length + 1) := by omega
    cases x <;> simp [places, ih, hlength]

namespace Collection

variable {C : Collection} {F : InFlight} {m m₁ : Machine} {p : PromiseId} {i : Nat}
  {deliver : Continuation Handler → Outcome → EvalM Unit}

/-- As long as there is no result, the gather is not done. -/
theorem Inv.gather_open (h : C.Inv F m) (hopen : m.store.outcome? C.result = none) :
    ∃ g, m.store.gathers[C.id.index]? = some g ∧ g.result = C.result ∧ g.done = false ∧
      g.remaining = (C.tokens F m).card := by
  cases h.phase with
  | gathering g hg hr hdone hcollects => exact ⟨g, hg, hr, hdone, hcollects.remaining⟩
  | gathered g o hg hdone hgives ho => cases hopen.symm.trans ho

/-- What comes of registering one operand, as long as there is no result. -/
structure Watched (C : Collection) (F : InFlight) (p : PromiseId) (m m₁ : Machine) : Prop where
  /-- If the operand has failed, then so has the gather. -/
  failed : ∀ e, m.store.outcome? p = some (.error e) →
    m₁.store.outcome? C.result = some (.error e)
  /-- Otherwise the gather goes on waiting for what is left. -/
  waits : (∀ e, m.store.outcome? p ≠ some (.error e)) → C.tokens F m ≠ 0 →
    m₁.store.outcome? C.result = none
  others : ∀ q, q ≠ C.result → m₁.store.outcome? q = m.store.outcome? q

theorem Inv.watched (h : C.Inv ((p, .gather C.id i) ::ₘ F) m) (hquiet : C.Quiet m)
    (hopen : m.store.outcome? C.result = none) (hdeliver : Gathers C.id deliver)
    (hrun : Promise.onComplete deliver p (.gather C.id i) m = .ok () m₁) : C.Watched F p m m₁ := by
  obtain ⟨d, handle, hd⟩ := hdeliver
  rw [Promise.onComplete_apply] at hrun
  rcases Store.register_cases p (.gather C.id i) m.store with ⟨ks, hks, hs⟩ | ⟨o, ho, hs⟩
  · rw [hs] at hrun
    obtain rfl : m.withStore _ = m₁ := (EStateM.Result.ok.inj hrun).2
    have hsame := Store.outcome?_register_eq (k := .gather C.id i) hks
    refine ⟨fun e he => ?_, fun _ _ => (hsame _).trans hopen, fun q _ => hsame q⟩
    rw [Store.outcome?, hks] at he
    cases he
  · rw [hs] at hrun
    have hrun : Promise.deliverStep d handle (.gather C.id i) o m = .ok () m₁ :=
      (congrFun (hd i o) m).symm.trans hrun
    have ho := Store.outcome?_of_state ho
    obtain ⟨g, hg, hr, hdone, hremaining⟩ := h.gather_open hopen
    let m' := m.withStore (m.store.record C.id i o).2
    have hsame : ∀ q, m'.store.outcome? q = m.store.outcome? q :=
      Store.outcome?_record C.id i o m.store
    -- whatever completes the gather is its result, at once
    have hcompletes : ∀ {g' : Gather} {c : Outcome}, g.record i o = (g', some c) →
        g'.result = C.result → Concrete c → m₁.store.outcome? C.result = some c ∧
          ∀ q, q ≠ C.result → m₁.store.outcome? q = m.store.outcome? q := by
      intro g' c hrecord hg' hc
      obtain ⟨hanswer, -⟩ := record_own hg hrecord
      rw [Option.map_some, hg'] at hanswer
      have hpending : m'.store.state C.result = .pending [] := by
        rcases (m'.store.state C.result).pending_or_ofOutcome with ⟨ks, hks⟩ | ⟨o', ho'⟩
        · rw [hks, hquiet ks ((Store.state_record C.id i o m.store C.result).symm.trans hks)]
        · cases (hopen.symm.trans (hsame C.result).symm).trans (Store.outcome?_of_state ho')
      rw [Promise.deliverStep_gather_some d handle hanswer, Promise.fulfil_concrete d hc] at hrun
      obtain rfl : m'.withStore _ = m₁ :=
        (EStateM.Result.ok.inj ((Promise.settle_quiet d hpending c).symm.trans hrun)).2
      exact ⟨Store.outcome?_setState_self (Store.has_record.2 h.hidden.has) c,
        fun q hq => (Store.outcome?_setState_ne hq).trans (hsame q)⟩
    cases o with
    | error e =>
      obtain ⟨hresult, hothers⟩ := hcompletes (g.record_error i hdone e) hr (concrete_error e)
      refine ⟨fun e' he' => ?_, fun hfine => absurd ho (hfine e), hothers⟩
      rw [hresult, ← ho, he']
    | ok v =>
      refine ⟨fun e he => ?_, fun _ hmore => ?_, ?_⟩
      · cases ho.symm.trans he
      · have hcard : (C.tokens ((p, .gather C.id i) ::ₘ F) m).card = (C.tokens F m).card + 1 := by
          have hbrings : (Continuation.gather C.id i : Continuation Handler).brings C.id = true :=
            beq_self_eq_true C.id
          rw [tokens, held_cons_of_true hbrings, Multiset.card_cons]
        have hleft : g.remaining - 1 ≠ 0 := by
          rw [hremaining, hcard, Nat.add_sub_cancel]
          exact mt Multiset.card_eq_zero.1 hmore
        obtain ⟨hanswer, -⟩ := record_own hg (g.record_more i hdone hleft v)
        rw [Promise.deliverStep_gather_none d handle hanswer] at hrun
        obtain rfl : m' = m₁ := (EStateM.Result.ok.inj hrun).2
        exact (hsame C.result).trans hopen
      · by_cases hlast : g.remaining - 1 = 0
        · exact (hcompletes (g.record_last i hdone hlast v) hr fun _ h => by cases h).2
        · obtain ⟨hanswer, -⟩ := record_own hg (g.record_more i hdone hlast v)
          rw [Promise.deliverStep_gather_none d handle hanswer] at hrun
          obtain rfl : m' = m₁ := (EStateM.Result.ok.inj hrun).2
          exact fun q _ => hsame q

/-- Of the operands that are there already the first one that has failed decides. -/
theorem Inv.watch_failure {context : Context} {n : Nat} {e : Error} {back : List (Nat × PromiseId)}
    (front : List (Nat × PromiseId)) {m : Machine}
    (h : C.Inv (C.id.awaiting (front ++ (i, p) :: back)) m)
    (hne : ∀ x ∈ front ++ (i, p) :: back, x.2 ≠ C.result) (hquiet : C.Quiet m)
    (hopen : m.store.outcome? C.result = none)
    (hfine : ∀ x ∈ front, ∀ e', m.store.outcome? x.2 ≠ some (.error e'))
    (hfailed : m.store.outcome? p = some (.error e))
    (hrun : Promise.watch (engine context (n + 1)).deliver C.id (front ++ (i, p) :: back) m =
      .ok () m₁) :
    m₁.store.outcome? C.result = some (.error e) := by
  have hgathers := gathers_engine C.id context n
  induction front generalizing m with
  | nil =>
    obtain ⟨_, m₂, hfirst, hrest⟩ := EvalM.ok_of_bind hrun
    have hnext : C.Inv ((p, .gather C.id i) ::ₘ C.id.awaiting back) m := h
    have hwatched := hnext.watched hquiet hopen hgathers hfirst
    have hevolves := (Conduct.composed.watch (conducted_engine context (n + 1)).deliver C.id back
      m₂).evolves
    rw [hrest] at hevolves
    exact hevolves.outcome? (hwatched.failed e hfailed)
  | cons x front ih =>
    obtain ⟨j, q⟩ := x
    have hsplit : C.id.awaiting ((j, q) :: (front ++ (i, p) :: back)) =
        (q, .gather C.id j) ::ₘ C.id.awaiting (front ++ (i, p) :: back) := rfl
    rw [List.cons_append, hsplit] at h
    obtain ⟨m₂, hfirst, hinv, hquiet₂⟩ := h.watch_one (hne _ (.head _)) hquiet
    have hfirst := hfirst _ hgathers
    have hwatched := h.watched hquiet hopen hgathers hfirst
    have hmore : C.tokens (C.id.awaiting (front ++ (i, p) :: back)) m ≠ 0 := by
      have hmem : (p, .gather C.id i) ∈ C.tokens (C.id.awaiting (front ++ (i, p) :: back)) m := by
        refine Multiset.mem_filter.2 ⟨Multiset.mem_add.2 (.inr ?_), beq_self_eq_true C.id⟩
        exact GatherId.mem_awaiting.2 ⟨i, List.mem_append_right _ (.head _), rfl⟩
      exact fun hnone => Multiset.notMem_zero _ (hnone ▸ hmem)
    have hothers : ∀ y ∈ front ++ (i, p) :: back, m₂.store.outcome? y.2 = m.store.outcome? y.2 :=
      fun y hy => hwatched.others _ (hne y (.tail _ hy))
    have hrest : Promise.watch (engine context (n + 1)).deliver C.id (front ++ (i, p) :: back) m₂ =
        .ok () m₁ := (EvalM.bind_of_ok hfirst).symm.trans hrun
    refine ih hinv (fun y hy => hne y (.tail _ hy)) hquiet₂
      (hwatched.waits (hfine _ (.head _)) hmore) (fun y hy e' => ?_) ?_ hrest
    · rw [hothers y (List.mem_append_left _ hy)]
      exact hfine y (.tail _ hy) e'
    · rw [hothers (i, p) (List.mem_append_right _ (.head _))]
      exact hfailed

end Collection

/-! ## Whole gathers -/

variable {context : Context} {m m₁ m₂ : Machine} {operands : List Value}

/-- If an operand has failed when the gather is started, then so has the gather, with the error of the
first one. -/
theorem Promise.all_failed (hm : m.Sound) (hhas : ∀ p, .promise p ∈ operands → m.store.Has p) {n : Nat}
    {e : Error} (hfirst : m.store.FirstFailure operands e)
    (hall : Promise.all (engine context (n + 1)).deliver operands m = .ok m.store.fresh.1 m₁) :
    m₁.store.outcome? m.store.fresh.1 = some (.error e) := by
  obtain ⟨front, p, back, hoperands, hintact, hp⟩ := hfirst
  have hany : operands.any Value.isPromise = true :=
    List.any_eq_true.2 ⟨.promise p, hoperands ▸ List.mem_append_right _ (.head _), rfl⟩
  have hplaces : Promise.places 0 operands =
      Promise.places 0 front ++ (0 + front.length, p) :: Promise.places (0 + front.length + 1) back := by
    rw [hoperands, Promise.places_append]
    rfl
  have hinv := Collection.inv_opened hm operands hany hhas
  have hne := Collection.ne_result_of_places hhas
  have hsame : ∀ q, (Collection.opened m operands).store.outcome? q = m.store.outcome? q :=
    fun q => congrArg PromiseState.outcome? (Store.state_fresh m.store q)
  rw [Promise.all_of_places (Promise.places_ne_nil hany), Promise.new_bind] at hall
  obtain ⟨_, _, hopened, hall⟩ := EvalM.ok_of_bind hall
  cases hopened
  obtain ⟨_, _, hwatch, hdone⟩ := EvalM.ok_of_bind hall
  cases hdone
  have hwatch : Promise.watch (engine context (n + 1)).deliver (Collection.start m operands).id
      (Promise.places 0 operands) (Collection.opened m operands) = .ok () m₁ := hwatch
  rw [Collection.underway, hplaces] at hinv
  rw [hplaces] at hne hwatch
  refine hinv.watch_failure _ hne (Collection.quiet_opened m operands) ?_ (fun x hx e' => ?_) ?_ hwatch
  · change m.store.fresh.2.outcome? m.store.fresh.1 = none
    rw [Store.outcome?, Store.state_made]
    rfl
  · rw [hsame]
    obtain ⟨l, -, hl⟩ := Promise.mem_places.1 hx
    exact hintact x.2 e' (List.mem_of_getElem? hl)
  · exact (hsame p).trans hp

/-- Where the result `r` of a gather stands between two turns. -/
structure Store.Combines (s : Store Handler) (operands : List Value) (r : PromiseId) : Prop where
  waiting : s.Intact operands → s.Missing operands → s.outcome? r = none
  complete : s.Intact operands → ¬s.Missing operands →
    ∃ values, s.Holds operands values ∧ s.outcome? r = some (.ok (.tuple values))
  failed : ∀ p e, .promise p ∈ operands → s.outcome? p = some (.error e) →
    ∃ p' e', .promise p' ∈ operands ∧ s.outcome? p' = some (.error e') ∧
      s.outcome? r = some (.error e')

theorem Collection.Inv.combines {C : Collection} (h : C.Inv 0 m) :
    m.store.Combines C.operands C.result := by
  rcases h.between with ⟨hnone, hmissing, hintact⟩ | ⟨values, hvalues, hresult⟩ |
    ⟨p, e, hp, he, hresult⟩
  · exact ⟨fun _ _ => hnone, fun _ hcomplete => absurd hmissing hcomplete,
      fun p e hp he => absurd he (hintact p e hp)⟩
  · have hsettled : ∀ p, .promise p ∈ C.operands → ∃ v, m.store.outcome? p = some (.ok v) :=
      fun p hp => hvalues.outcome? hp
    refine ⟨fun _ ⟨p, hp, hnone⟩ => ?_, fun _ _ => ⟨values, hvalues, hresult⟩, fun p e hp he => ?_⟩
    · obtain ⟨v, hv⟩ := hsettled p hp
      cases hnone.symm.trans hv
    · obtain ⟨v, hv⟩ := hsettled p hp
      cases he.symm.trans hv
  · exact ⟨fun hintact => absurd he (hintact p e hp), fun hintact => absurd he (hintact p e hp),
      fun _ _ _ _ => ⟨p, e, hp, he, hresult⟩⟩

/-- If an operand fails in a step in which no other operand is settled, then so does the gather. -/
theorem Store.Combines.fails {s s' : Store Handler} {r p : PromiseId} {e : Error}
    (h : s'.Combines operands r) (hintact : s.Intact operands) (hone : s.OneSettled operands s')
    (hkeeps : ∀ q o, s.outcome? q = some o → s'.outcome? q = some o) (hp : .promise p ∈ operands)
    (he : s'.outcome? p = some (.error e)) : s'.outcome? r = some (.error e) := by
  -- an operand that has failed by now was pending before
  have hpending : ∀ q e', .promise q ∈ operands → s'.outcome? q = some (.error e') →
      s.outcome? q = none := by
    intro q e' hq he'
    cases ho : s.outcome? q with
    | none => rfl
    | some o =>
      obtain rfl := Option.some.inj ((hkeeps q o ho).symm.trans he')
      exact absurd ho (hintact q e' hq)
  obtain ⟨p', e', hp', he', hr⟩ := h.failed p e hp he
  obtain rfl := hone p p' hp hp' (hpending p e hp he) (hpending p' e' hp' he') (by simp [he])
    (by simp [he'])
  rw [hr, ← he', he]

/-- A gather of values is there at once. -/
theorem Promise.all_values (hnone : operands.any Value.isPromise = false)
    (deliver : Continuation Handler → Outcome → EvalM Unit) :
    Promise.all deliver operands m = .ok m.store.fresh.1 (m.withStore
      (m.store.fresh.2.setState m.store.fresh.1 (.ofOutcome (.ok (.tuple operands))))) := by
  have hplaces : Promise.places 0 operands = [] := by
    refine List.eq_nil_iff_forall_not_mem.2 fun ⟨i, p⟩ hx => ?_
    obtain ⟨l, -, hl⟩ := Promise.mem_places.1 hx
    exact absurd (List.any_eq_false.1 hnone _ (List.mem_of_getElem? hl)) (by simp [Value.isPromise])
  have hfulfil := Promise.fulfil_concrete deliver (o := .ok (.tuple operands))
    (fun _ h => by cases h) m.store.fresh.1
  rw [Promise.all, hplaces]
  change Promise.settled deliver _ m = _
  rw [Promise.settled, Promise.new_bind, hfulfil]
  exact EvalM.bind_of_ok (Promise.settle_quiet (m := m.withStore m.store.fresh.2) deliver
    m.store.state_made _)

/-- What a gather leaves with its host: the invariant, or the tuple if there was nothing to wait for. -/
def Gathered (m : Machine) (operands : List Value) (m' : Machine) : Prop :=
  (Collection.start m operands).Inv 0 m' ∨
    operands.any Value.isPromise = false ∧
      m'.store.outcome? m.store.fresh.1 = some (.ok (.tuple operands))

theorem Gathered.combines (h : Gathered m operands m₁) :
    m₁.store.Combines operands m.store.fresh.1 := by
  rcases h with hinv | ⟨hnone, hresult⟩
  · exact hinv.combines
  · have hno : ∀ p, .promise p ∉ operands := fun p hp =>
      absurd (List.any_eq_false.1 hnone _ hp) (by simp [Value.isPromise])
    refine ⟨fun _ ⟨p, hp, _⟩ => absurd hp (hno p), fun _ _ => ⟨operands, ?_, hresult⟩,
      fun p _ hp => absurd hp (hno p)⟩
    refine List.forall₂_same.2 fun v hv => ?_
    cases v with
    | promise p => exact absurd hv (hno p)
    | _ => rfl

theorem evolves_of_runAll {fuel : Nat} {turns : List Turn}
    (hrun : Turn.runAll (engine context fuel) turns m₁ = .ok () m₂) : Evolves m₁ m₂ := by
  have hconduct := (Turn.conduct_runAll context fuel turns m₁).evolves
  rwa [hrun] at hconduct

theorem Gathered.runAll (h : Gathered m operands m₁) {fuel : Nat} {turns : List Turn}
    (hspare : Turn.Spare (· = m.store.fresh.1) turns)
    (hrun : Turn.runAll (engine context fuel) turns m₁ = .ok () m₂) : Gathered m operands m₂ := by
  rcases h with hinv | ⟨hnone, hresult⟩
  · let C := Collection.start m operands
    have hcounts : (C.protocol context C.result).Counts := fun _ _ _ h => h.hidden.has
    have htally := Protocol.runAll (P := C.protocol context C.result) hcounts (n := fuel) (d := 0) hinv
      hspare (.refl m₁)
    rw [hrun] at htally
    obtain ⟨_, _, -, hinv₂, -⟩ := htally.of_ok
    exact .inl hinv₂
  · exact .inr ⟨hnone, (evolves_of_runAll hrun).outcome? hresult⟩

/-- A gather over any operands, some of which may be values, some promises that are settled, and some
promises that are settled later, by turns of the host that do not settle the result by hand. Without a
promise among the operands it has the tuple of them at once; if operands have failed already, it has
failed at once with the error of the first of them. Whatever turns come then, it is pending as long as
none has failed and one is missing, and has the tuple of their values once none is missing. If an operand
fails in a turn that settles no other operand, and none has failed before, then that is the failure of
the gather. And what it has it keeps. -/
theorem Promise.all_independent (context : Context) (hm : m.Sound)
    (hhas : ∀ p, .promise p ∈ operands → m.store.Has p) :
    ∃ r m₁, (∀ n, Promise.all (engine context (n + 1)).deliver operands m = .ok r m₁) ∧
      ¬m.store.Has r ∧
      (operands.any Value.isPromise = false → m₁.store.outcome? r = some (.ok (.tuple operands))) ∧
      (∀ e, m.store.FirstFailure operands e → m₁.store.outcome? r = some (.error e)) ∧
      ∀ turns, Turn.Spare (· = r) turns →
        Finishes context (fun n => Turn.runAll (engine context n) turns) m₁ ∧
        ∀ fuel m₂, Turn.runAll (engine context fuel) turns m₁ = .ok () m₂ →
          (∀ o, m₁.store.outcome? r = some o → m₂.store.outcome? r = some o) ∧
          m₂.store.Combines operands r ∧
          ∀ more, Turn.Spare (· = r) more →
            ∀ m₃, Turn.runAll (engine context fuel) more m₂ = .ok () m₃ →
              (∀ o, m₂.store.outcome? r = some o → m₃.store.outcome? r = some o) ∧
              (m₂.store.Intact operands → m₂.store.OneSettled operands m₃.store →
                ∀ p e, .promise p ∈ operands → m₃.store.outcome? p = some (.error e) →
                  m₃.store.outcome? r = some (.error e)) := by
  have hstart : ∃ m₁, (∀ n, Promise.all (engine context (n + 1)).deliver operands m =
      .ok m.store.fresh.1 m₁) ∧ Gathered m operands m₁ ∧ (operands.any Value.isPromise = false →
        m₁.store.outcome? m.store.fresh.1 = some (.ok (.tuple operands))) := by
    cases hany : operands.any Value.isPromise with
    | true =>
      obtain ⟨m₁, hall, hinv⟩ := Collection.start_all hm hany hhas
      exact ⟨m₁, fun n => hall _ (gathers_engine _ context n), .inl hinv, nofun⟩
    | false =>
      let s := m.store.fresh.2.setState m.store.fresh.1 (.ofOutcome (.ok (.tuple operands)))
      have hresult : s.outcome? m.store.fresh.1 = some (.ok (.tuple operands)) :=
        Store.outcome?_setState_self (Store.has_fresh.2 (.inr rfl)) _
      exact ⟨m.withStore s, fun n => Promise.all_values hany _, .inr ⟨hany, hresult⟩,
        fun _ => hresult⟩
  obtain ⟨m₁, hall, hgathered, hvalues⟩ := hstart
  refine ⟨_, m₁, hall, m.store.not_has_fresh, hvalues,
    fun e hfirst => Promise.all_failed hm hhas hfirst (hall 0), fun turns hspare =>
      ⟨Turn.finishes (hm.all (hall 0)).flat turns, fun fuel m₂ hrun => ?_⟩⟩
  have hgathered₂ := hgathered.runAll hspare hrun
  refine ⟨fun o => (evolves_of_runAll hrun).outcome?, hgathered₂.combines, fun more hmore m₃ hrun' => ?_⟩
  have hevolves := evolves_of_runAll hrun'
  exact ⟨fun o => hevolves.outcome?, fun hintact hone p e =>
    (hgathered₂.runAll hmore hrun').combines.fails hintact hone fun q o => hevolves.outcome?⟩

/-- The same promise may be an operand twice. -/
theorem Promise.all_independent_twice :
    let m := Session.expecting.machine
    let operands : List Value := [.promise ⟨0⟩, .int 5, .promise ⟨0⟩]
    m.Sound ∧ (∀ p, .promise p ∈ operands → m.store.Has p) ∧
      ∃ r m₁, Promise.all (engine Session.expecting.context 1).deliver operands m = .ok r m₁ ∧
        m₁.store.Combines operands r := by
  intro m operands
  have hhas : ∀ p, .promise p ∈ operands → m.store.Has p := by
    intro p hp
    have hp : p = ⟨0⟩ := by simpa [operands] using hp
    rw [hp]
    exact Nat.zero_lt_one
  obtain ⟨r, m₁, hall, -, -, -, hturns⟩ :=
    Promise.all_independent Session.expecting.context Session.sound_expecting hhas
  obtain ⟨-, hcombines, -⟩ := (hturns [] nofun).2 0 m₁ rfl
  exact ⟨Session.sound_expecting, hhas, r, m₁, hall 0, hcombines⟩

end Deferral
