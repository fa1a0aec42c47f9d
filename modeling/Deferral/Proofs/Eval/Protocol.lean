import Deferral.Proofs.Eval.Conduct
import Deferral.Proofs.Eval.Observed
import Deferral.Proofs.Promise.Waiting

/-!
# Protocols between promises

What becomes of a promise after it has been made depends on continuations that wait here and there, and
that run in the middle of whatever else happens when some promise is settled. A `Protocol` is an
invariant about such continuations, wherever they are: in the store, or in flight, that is, taken out of
it and not yet run. It says what each kind of continuation does to the invariant when it is run, in two
steps where it settles a promise: what is due to the promise (`Due`), and the settlement itself. The
handlers of continuations run arbitrary code; of that a protocol need only know that it leaves alone
what is there already (`Passed`).

From these single steps it follows that the invariant is kept by everything that happens when a promise
is given an outcome (`Protocol.fulfil`), however deeply settlements are nested. The number of starts of
the handler behind the promise `q` is counted along the way, by comparison with the observed engine.
-/

set_option autoImplicit false

namespace Deferral

/-- Continuations that have been taken out of a store or have not been put into it yet, each with the
promise whose outcome it is for. -/
abbrev InFlight := Multiset (PromiseId × Continuation Handler)

/-- What a handler can do to a machine: what is there already is not settled, and nothing new waits
for it to be done something with. -/
structure Passed (m m' : Machine) : Prop where
  grown : m.Grown m.store.fence m'
  fenced : m'.store.Fenced m.store.fence
  evolves : Evolves m m'

/-- An invariant about continuations in the store and in flight. -/
structure Protocol (context : Context) (q : PromiseId) where
  Inv : InFlight → Nat → Machine → Prop
  /-- The promise is about to be given the outcome. -/
  Due : PromiseId → Outcome → InFlight → Nat → Machine → Prop
  /-- A handler runs. -/
  passed : ∀ {F d m m'}, Inv F d m → Passed m m' → Inv F d m'
  adopt : ∀ {F d m p t o}, Inv ((p, .adopt t) ::ₘ F) d m → m.store.outcome? p = some o → Due t o F d m
  derive : ∀ {F d m m' p t h o answer n}, Inv ((p, .derive t h) ::ₘ F) d m →
    m.store.outcome? p = some o → (engine context n).handle h o m = .ok answer m' → Passed m m' →
    Due t answer F (if starts q (.derive t h) o then d + 1 else d) m'
  notify : ∀ {F d m p h}, Inv ((p, .notify h) ::ₘ F) d m → Inv F d m
  gather : ∀ {F d m p id i o}, Inv ((p, .gather id i) ::ₘ F) d m → m.store.outcome? p = some o →
    match (m.store.record id i o).1 with
    | none => Inv F d (m.withStore (m.store.record id i o).2)
    | some (t, combined) => Due t combined F d (m.withStore (m.store.record id i o).2)
  /-- A promise settles, and what has waited for it is in flight. -/
  settle : ∀ {F d m t o ks}, Due t o F d m → Concrete o → m.store.state t = .pending ks →
    Inv (Continuation.awaiting t ks + F) d (m.withStore (m.store.setState t (.ofOutcome o)))
  /-- A promise that is settled stays as it is. -/
  settled : ∀ {F d m t o o'}, Due t o F d m → m.store.outcome? t = some o' → Inv F d m
  self : ∀ {F d m t}, Due t (.ok (.promise t)) F d m →
    Due t (.error (.resolution .selfFulfilment)) F d m
  /-- A promise is to adopt the outcome of another. -/
  adopts : ∀ {F d m t s}, Due t (.ok (.promise s)) F d m → s ≠ t → Inv ((s, .adopt t) ::ₘ F) d m
  /-- What is in flight is put into the store. -/
  register : ∀ {F d m p k ks}, Inv ((p, k) ::ₘ F) d m → m.store.state p = .pending ks →
    Inv F d (m.withStore (m.store.setState p (.pending (ks ++ [k]))))
  /-- What nothing else settles. -/
  Own : PromiseId → Prop
  /-- Something else is given an outcome, from outside. -/
  give : ∀ {F d m t o}, Inv F d m → ¬Own t → Due t o F d m
  tasks : ∀ {F d m}, Inv F d m → ∀ task ∈ m.rest.queue, ¬Own task.target
  dequeue : ∀ {F d m queue}, Inv F d m → (∀ task ∈ queue, task ∈ m.rest.queue) →
    Inv F d (m.withQueue queue)

namespace Protocol

variable {context : Context} {q : PromiseId} (P : Protocol context q) {n d : Nat} {F : InFlight}
  {m m' : Machine} {p t : PromiseId} {o : Outcome} {k : Continuation Handler}

/-- The promise whose handler is counted has been made. -/
def Counts : Prop := ∀ F d m, P.Inv F d m → m.store.Has q

/-- Running a continuation that is in flight keeps the invariant. -/
def Kept (n : Nat) : Prop := ∀ F d m m' p k o, P.Inv ((p, k) ::ₘ F) d m →
  m.store.outcome? p = some o → Twin d m m' →
    Tally (P.Inv F) ((engine context n).deliver k o m) ((observed q context n).deliver k o m')

/-- What code can do, if it is the same on both sides. -/
theorem tally_parallel {α : Type} {x y : EvalM α} {settings : Context}
    {ρ : Environment → Environment → Prop} (hq : m.store.Has q) (twin : Twin d m m')
    (hx : ∀ R : Pairing, R.label = .plain → q.index < R.fence.promises →
      Parallel R m.rest.env.module x y) (hconduct : Conduct settings ρ x) :
    Tally (fun d' m₁ => d' = d ∧ Passed m m₁) (x m) (y m') := by
  refine .of_agree twin (hx (.from m m') rfl hq m m' twin.alike (.refl _)) fun a m₁ m₁' hr h => ⟨rfl, ?_⟩
  have hends := (hconduct m).evolves
  rw [hr] at hends
  exact ⟨h.grown, h.alike.fenced, hends⟩

theorem tally_handle (hq : m.store.Has q) (twin : Twin d m m') (n : Nat) (h : Handler) (o : Outcome) :
    Tally (fun d' m₁ => d' = d ∧ Passed m m₁) ((engine context n).handle h o m)
      ((observed q context n).handle h o m') := by
  refine tally_parallel hq twin (fun R hplain hold => ?_) ((conducted_engine context n).handle h o)
  exact (abreast_observed hplain hold context n).handle o (Rewriting.rewrites_plain hplain h)

section

variable {P} (hd : P.Kept n)
include hd

theorem deliverAll (ks : List (Continuation Handler)) {F : InFlight} {d : Nat} {m m' : Machine}
    (hinv : P.Inv (Continuation.awaiting p ks + F) d m) (ho : ks ≠ [] → m.store.outcome? p = some o)
    (twin : Twin d m m') :
    Tally (P.Inv F) (Promise.deliverAll (engine context n).deliver ks o m)
      (Promise.deliverAll (observed q context n).deliver ks o m') := by
  induction ks generalizing d m m' with
  | nil =>
    have hnone : Continuation.awaiting p ([] : List (Continuation Handler)) + F = F := zero_add F
    exact .ok () (hnone ▸ hinv) twin
  | cons k ks ih =>
    have hsplit : Continuation.awaiting p (k :: ks) + F =
        (p, k) ::ₘ (Continuation.awaiting p ks + F) := by
      rw [← Multiset.cons_add]
      rfl
    have ho := ho (List.cons_ne_nil k ks)
    refine (hd _ d m m' p k o (hsplit ▸ hinv) ho twin).bind fun _ d₁ m₁ m₁' hr hinv₁ twin₁ => ?_
    have hends := ((conducted_engine context n).deliver k o m).evolves
    rw [hr] at hends
    exact ih hinv₁ (fun _ => hends.outcome? ho) twin₁

theorem settles (hdue : P.Due t o F d m) (ho : Concrete o) (twin : Twin d m m') :
    Tally (P.Inv F) (Promise.settle (engine context n).deliver t o m)
      (Promise.settle (observed q context n).deliver t o m') := by
  rw [Promise.settle_apply, Promise.settle_apply, twin.store]
  rcases Store.settle_cases t o m.store with ⟨ks, hks, hs⟩ | ⟨o', ho', hs⟩
  · rw [hs]
    refine deliverAll hd ks (P.settle hdue ho hks) (fun hne => ?_) (twin.withStore _)
    by_cases hhas : m.store.Has t
    · exact Store.outcome?_setState_self hhas o
    · rw [Store.state_of_not_has hhas] at hks
      exact absurd (PromiseState.pending.inj hks).symm hne
  · rw [hs]
    exact .ok () (P.settled hdue (Store.outcome?_of_state ho')) (twin.withStore m.store)

theorem onComplete (hinv : P.Inv ((p, k) ::ₘ F) d m) (twin : Twin d m m') :
    Tally (P.Inv F) (Promise.onComplete (engine context n).deliver p k m)
      (Promise.onComplete (observed q context n).deliver p k m') := by
  rw [Promise.onComplete_apply, Promise.onComplete_apply, twin.store]
  rcases Store.register_cases p k m.store with ⟨ks, hks, hs⟩ | ⟨o, ho, hs⟩
  · rw [hs]
    exact .ok () (P.register hinv hks) (twin.withStore _)
  · rw [hs]
    exact hd F d m _ p k o hinv (Store.outcome?_of_state ho) (twin.withStore m.store)

/-- Whatever is set off by giving an outcome to a promise keeps the invariant. -/
theorem fulfil (hdue : P.Due t o F d m) (twin : Twin d m m') :
    Tally (P.Inv F) (Promise.fulfil (engine context n).deliver t o m)
      (Promise.fulfil (observed q context n).deliver t o m') := by
  rcases concrete_or_promise o with ho | ⟨s, rfl⟩
  · rw [Promise.fulfil_concrete _ ho, Promise.fulfil_concrete _ ho]
    exact settles hd hdue ho twin
  · by_cases hs : s = t
    · subst hs
      rw [Promise.fulfil_self, Promise.fulfil_self]
      exact settles hd (P.self hdue) (concrete_error _) twin
    · rw [Promise.fulfil_other _ hs, Promise.fulfil_other _ hs]
      exact onComplete hd (P.adopts hdue hs) twin

theorem kept_succ (hq : P.Counts) : P.Kept (n + 1) := by
  intro F d m m' p k o hinv ho twin
  rw [engine_succ]
  cases k with
  | adopt t =>
    rw [observed_deliver q context n rfl]
    exact fulfil hd (P.adopt hinv ho) twin
  | derive t h =>
    have hrun : ∀ {d' : Nat} {m₁' : Machine}, Twin d' m m₁' →
        d' = (if starts q (.derive t h) o then d + 1 else d) →
        Tally (P.Inv F) ((engine context n).deliverStep (.derive t h) o m)
          ((observed q context n).deliverStep (.derive t h) o m₁') := by
      intro d' m₁' twin' hd'
      refine (tally_handle (hq _ _ _ hinv) twin' n h o).bind fun answer d₁ m₂ m₂' hr hpassed twin₂ => ?_
      obtain ⟨rfl, hpassed⟩ := hpassed
      exact fulfil hd (hd' ▸ P.derive hinv ho hr hpassed) twin₂
    by_cases hstarts : starts q (.derive t h) o = true
    · have hnoted : (observed q context (n + 1)).deliver (.derive t h) o m' =
          (observed q context n).deliverStep (.derive t h) o
            (m'.withLog (.outcome "started" (.ok .unit) :: m'.rest.log)) := by
        simp only [observed, hstarts]
        rfl
      change Tally _ ((engine context n).deliverStep (.derive t h) o m) _
      rw [hnoted]
      exact hrun (twin.note _) (by rw [if_pos hstarts])
    · rw [observed_deliver q context n (by simpa using hstarts)]
      exact hrun twin (by rw [if_neg hstarts])
  | gather id i =>
    rw [observed_deliver q context n rfl]
    have hstep := P.gather hinv ho
    have hanswer : (m'.store.record id i o).1 = (m.store.record id i o).1 := by rw [twin.store]
    have htwin : Twin d (m.withStore (m.store.record id i o).2)
        (m'.withStore (m'.store.record id i o).2) := by
      rw [twin.store]
      exact twin.withStore _
    change Tally _ ((engine context n).deliverStep (.gather id i) o m) _
    rw [Engine.deliverStep, Engine.deliverStep]
    split at hstep
    · rename_i hnone
      rw [Promise.deliverStep_gather_none _ _ hnone,
        Promise.deliverStep_gather_none _ _ (hanswer.trans hnone)]
      exact .ok () hstep htwin
    · rename_i t combined hsome
      rw [Promise.deliverStep_gather_some _ _ hsome,
        Promise.deliverStep_gather_some _ _ (hanswer.trans hsome)]
      exact fulfil hd hstep htwin
  | notify h =>
    rw [observed_deliver q context n rfl]
    refine (tally_handle (hq _ _ _ hinv) twin n h o).bind fun _ d₁ m₁ m₁' _ hpassed twin₁ => ?_
    obtain ⟨rfl, hpassed⟩ := hpassed
    exact .ok () (P.passed (P.notify hinv) hpassed) twin₁

end

/-- Running a continuation keeps the invariant, with any fuel. -/
theorem kept (hq : P.Counts) (n : Nat) : P.Kept n := by
  induction n with
  | zero => exact fun _ _ _ _ _ _ _ _ _ _ => .error .outOfFuel
  | succ n ih => exact kept_succ ih hq

/-- The protocol about nothing. -/
def idle (context : Context) (q : PromiseId) : Protocol context q where
  Inv _ _ _ := True
  Due _ _ _ _ _ := True
  passed _ _ := trivial
  adopt _ _ := trivial
  derive _ _ _ _ := trivial
  notify _ := trivial
  gather _ _ := by split <;> trivial
  settle _ _ _ := trivial
  settled _ _ := trivial
  self _ := trivial
  adopts _ _ := trivial
  register _ _ := trivial
  Own _ := False
  give _ _ := trivial
  tasks _ _ _ h := h
  dequeue _ _ := trivial

end Protocol

end Deferral
