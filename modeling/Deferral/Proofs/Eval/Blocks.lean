import Deferral.Proofs.Eval.Derived
import Deferral.Proofs.Pattern.Stability

/-!
# The order of steps in a block

The steps of a block that come after one that waits are left with the promise that it waits for, as the
handler of a link. So they are started when the promise has a value, once, and not at all as long as it
has none: `Engine.block_holds_back`. A failure of the promise is the failure of the block.

A step waits if it is a plain one, if there are promises among the keys of its pattern, or if the pattern
has to look at the value (`Step.Waits`). A step that binds a plain name does not wait.
-/

set_option autoImplicit false

namespace Deferral

/-- What has become of work that was left with a promise `p`, and whose result is to be `q`, after a
number of starts of the work. -/
structure HeldBack (p q : PromiseId) (d : Nat) (m : Machine) : Prop where
  pending : m.store.outcome? p = none → d = 0 ∧ m.store.outcome? q = none
  failed : ∀ e, m.store.outcome? p = some (.error e) → d = 0 ∧ m.store.outcome? q = some (.error e)
  fulfilled : ∀ v, m.store.outcome? p = some (.ok v) → d = 1

theorem Link.Account.heldBack {L : Link} {d : Nat} {m : Machine} (h : L.Account d m) :
    HeldBack L.source L.target d m :=
  ⟨h.pending, h.failed, fun v hv => (h.fulfilled v hv).1⟩

/-- What is left with a promise that has no value is not started before it has one. Nothing happens
meanwhile but that the promise for the result is made. -/
theorem Engine.whenReady_held {m : Machine} (hm : m.Sound) {p : PromiseId} (hp : m.store.Has p)
    (hvalue : ∀ v, m.store.outcome? p ≠ some (.ok v)) (context : Context) (n : Nat) (frame : Frame) :
    ∃ q s, (engine context (n + 1)).whenReady (.promise p) frame m = .ok (.promise q) (m.withStore s) ∧
      Throughout context q (· = q) (HeldBack p q) (m.withStore s) (m.withStore s) := by
  let L : Link := ⟨context, m, p, m.store.fresh.1, .resume frame m.rest.env, fun _ => True⟩
  let P : Protocol context m.store.fresh.1 :=
    L.protocol (.idle context m.store.fresh.1) fun _ _ => trivial
  have hcounts : P.Counts := Link.counts
  obtain ⟨s, hderive, hkept⟩ := Promise.derive_held L.handler (fun _ _ => rfl) hvalue context n
  have htally := Protocol.derives (P := P) hcounts rfl
    ⟨hm.link hp context L.handler _, trivial⟩ (n + 1)
  rw [show Promise.derive (engine context (n + 1)).deliver p L.handler m =
    .ok m.store.fresh.1 (m.withStore s) from hderive] at htally
  obtain ⟨d, -, -, hinv, -⟩ := htally.of_ok
  have hnone : d = 0 := by
    have haccount := hinv.1.account fun _ _ => rfl
    cases ho : m.store.outcome? p with
    | none => exact (haccount.pending (hkept.trans ho)).1
    | some o =>
      cases o with
      | ok v => exact absurd ho (hvalue v)
      | error e => exact (haccount.failed e (hkept.trans ho)).1
  subst hnone
  exact ⟨m.store.fresh.1, s, EvalM.bind_of_ok hderive, Protocol.throughout hcounts
    (fun r hr => hr.elim id False.elim) (fun d₁ m₁ hinv₁ => (hinv₁.1.account fun _ _ => rfl).heldBack)
    hinv.1.hidden.flat hinv (.refl _)⟩

/-- A run has left something with a promise `w`: it yields a promise for the result, and what is left is
held back until there is a value, whatever happens meanwhile. -/
def HoldsBack (context : Context) (w : PromiseId) (m : Machine)
    (result : EStateM.Result Abort Machine Value) : Prop :=
  ∃ q s, result = .ok (.promise q) (m.withStore s) ∧
    Throughout context q (· = q) (HeldBack w q) (m.withStore s) (m.withStore s)

/-! ## Patterns that look at a value -/

/-- The match begins with a look at the value, whatever the scope and the keys are. -/
def Pattern.inspects : Pattern → Bool
  | .wildcard | .bind _ => false
  | .literal _ | .tuple _ | .sequence _ | .dict _ => true
  | .cons _ rest _ => rest.badRest?.isNone
  | .alias _ inner | .guarded inner _ => inner.inspects

namespace Pattern

variable {pattern : Pattern} {sight : Sight} {v : Value} {stop : Stop}

theorem visit_of_inspects (h : pattern.inspects = true) (hstop : sight.settle v = .error stop)
    (progress : Progress) : pattern.visit sight v progress = .error stop := by
  fun_induction Pattern.inspects pattern with
  | case1 => cases h
  | case2 => cases h
  | case7 front rest back =>
    rw [visit, Option.isNone_iff_eq_none.1 h]
    simp only [hstop]
    rfl
  | case8 name inner ih =>
    rw [visit, ih h]
    rfl
  | case9 inner guard ih =>
    rw [visit, ih h]
    rfl
  | _ =>
    rw [visit, hstop]
    rfl

/-- The match waits for a promise that is pending, and fails as a promise has failed. -/
theorem matching_of_inspects (h : pattern.inspects = true) (p : PromiseId) (keys : List Value) :
    (sight.outcome? p = none → pattern.matching sight (.promise p) keys = .ok (.pending p)) ∧
      ∀ x, sight.outcome? p = some (.error x) →
        pattern.matching sight (.promise p) keys = .error x := by
  refine ⟨fun hp => ?_, fun x hp => ?_⟩
  · exact matching_eq_pending.2 (visit_of_inspects h (by rw [Sight.settle, hp]) _)
  · exact matching_of_fails (visit_of_inspects h (by rw [Sight.settle, hp]) _)

end Pattern

/-! ## Steps that wait -/

/-- A step has to wait, and leaves a frame with the promise `w`. Its expression yields the promise `p`.
A plain step waits for that. If a step binds a pattern, the keys of the pattern are evaluated first. If
there are promises among them, the step waits for the keys, and the match is still to come; otherwise it
waits for `p`, if the match has to look at it. -/
inductive Step.Waits (E : Engine) (m₁ : Machine) (p : PromiseId) (e : Expr) (next : Work) :
    Step → PromiseId → Frame → Machine → Prop
  | run : Waits E m₁ p e next (.run e) p (.andThen next) m₁
  | keys {pattern : Pattern} {keys : List Value} {w : PromiseId} {m₂ m₃ : Machine}
    (hkeys : E.evalItems pattern.keys m₁ = .ok keys m₂) (hwait : keys.any Value.isPromise = true)
    (hall : Promise.all E.deliver keys m₂ = .ok w m₃) :
    Waits E m₁ p e next (.bind pattern e) w (.bindKeys (.promise p) pattern next) m₃
  | bind {pattern : Pattern} {keys : List Value} {m₂ : Machine}
    (hkeys : E.evalItems pattern.keys m₁ = .ok keys m₂) (hready : keys.any Value.isPromise = false)
    (h : pattern.matching m₂.sight (.promise p) keys = .ok (.pending p)) :
    Waits E m₁ p e next (.bind pattern e) p (.bindRetry (.promise p) pattern keys next) m₂

section

variable {context : Context} {n : Nat} {m m₁ m₂ : Machine} {e : Expr} {p w : PromiseId} {step : Step}
  {frame : Frame} {pattern : Pattern} {keys : List Value}

theorem Engine.bind_of_keys {E : Engine} {v : Value} {next : Work}
    (hkeys : E.evalItems pattern.keys m₁ = .ok keys m₂) (hready : keys.any Value.isPromise = false) :
    E.bind v pattern next m₁ = E.bindWith v pattern keys next m₂ := by
  refine (EvalM.bind_of_ok hkeys).trans ?_
  rw [Engine.whenAllReady, hready]
  rfl

/-- What is left with the promise: the steps that follow, and before them the match. -/
theorem Step.Waits.evalBlock {E : Engine} {next : Step} {rest : List Step}
    (h : step.Waits E m₁ p e (.block (next :: rest)) w frame m₂)
    (heval : E.eval e m = .ok (.promise p) m₁) :
    E.evalBlock (step :: next :: rest) m = E.whenReady (.promise w) frame m₂ := by
  have hstep := EvalM.bind_of_ok (f := fun v => match step with
    | .run _ => E.whenReady v (.andThen (.block (next :: rest)))
    | .bind pattern _ => E.bind v pattern (.block (next :: rest))) heval
  cases h with
  | run => exact hstep
  | keys hkeys hwait hall =>
    refine hstep.trans ((EvalM.bind_of_ok hkeys).trans ?_)
    rw [Engine.whenAllReady, hwait]
    exact EvalM.bind_of_ok hall
  | bind hkeys hready hmatching =>
    exact hstep.trans ((Engine.bind_of_keys hkeys hready).trans (Engine.bindWith_of_pending hmatching))

/-- The promise that a step waits for has been made, in a machine that is sound. -/
theorem Step.Waits.sound {next : Work} (h : step.Waits (engine context n) m₁ p e next w frame m₂)
    (hm : m₁.Sound) (hp : m₁.store.Has p) : m₂.Sound ∧ m₂.store.Has w := by
  have hengine := conducted_engine context n
  cases h with
  | run => exact ⟨hm, hp⟩
  | keys hkeys _ hall => exact ⟨(hm.evalItems hkeys).all hall, hengine.has_all hall⟩
  | @bind pattern keys _ hkeys _ _ =>
    have hends := (hengine.evalItems (ρ := (· = ·)) pattern.keys m₁).evolves
    rw [hkeys] at hends
    exact ⟨hm.evalItems hkeys, hends.has hp⟩

end

/-- A step that has to wait holds back the steps after it, whatever happens meanwhile and whenever what
it waits for is settled: they are not started as long as that has no value, and if it fails they never
are, and the block fails with the same error. If the promise of a step has failed already and its
pattern looks at it, the block fails at once, with that error. The same is so when a step has waited for
the keys of its pattern and is taken up again. Patterns look at the value if they are neither a plain
name nor a wildcard, under any names and guards. -/
theorem Engine.block_holds_back {m m₁ : Machine} (hm : m.Sound) {context : Context} {n : Nat}
    {e : Expr} {p : PromiseId} (heval : (engine context n).eval e m = .ok (.promise p) m₁)
    (hp : m₁.store.Has p) (next : Step) (rest : List Step) :
    (∀ step w frame m₂, Step.Waits (engine context n) m₁ p e (.block (next :: rest)) step w frame m₂ →
      (∀ v, m₂.store.outcome? w ≠ some (.ok v)) →
      HoldsBack context w m₂ ((engine context n).evalBlock (step :: next :: rest) m)) ∧
    (∀ pattern keys m₂ x, (engine context n).evalItems pattern.keys m₁ = .ok keys m₂ →
      keys.any Value.isPromise = false → pattern.matching m₂.sight (.promise p) keys = .error x →
      (engine context n).evalBlock (.bind pattern e :: next :: rest) m = .error (.error x) m₂) ∧
    (∀ pattern keys k m₂, m₂.Sound → m₂.store.Has p →
      (pattern.matching m₂.sight (.promise p) keys = .ok (.pending p) →
        (∀ v, m₂.store.outcome? p ≠ some (.ok v)) →
        HoldsBack context p m₂ ((engine context (k + 2)).resume
          (.bindKeys (.promise p) pattern (.block (next :: rest))) (.tuple keys) m₂)) ∧
      ∀ x, pattern.matching m₂.sight (.promise p) keys = .error x →
        (engine context (k + 2)).resume
          (.bindKeys (.promise p) pattern (.block (next :: rest))) (.tuple keys) m₂ =
            .error (.error x) m₂) ∧
    ∀ pattern : Pattern, pattern.inspects = true → ∀ (sight : Sight) (keys : List Value),
      (sight.outcome? p = none → pattern.matching sight (.promise p) keys = .ok (.pending p)) ∧
        ∀ x, sight.outcome? p = some (.error x) →
          pattern.matching sight (.promise p) keys = .error x := by
  refine ⟨fun step w frame m₂ hstep hvalue => ?_, fun pattern keys m₂ x hkeys hready hfails => ?_,
    fun pattern keys k m₂ hm₂ hp₂ => ⟨fun hpending hvalue => ?_, fun x hfails => ?_⟩,
    fun pattern h sight keys => Pattern.matching_of_inspects h p keys⟩
  · cases n with
    | zero => cases heval
    | succ n =>
      obtain ⟨hm₂, hw⟩ := hstep.sound (hm.eval heval) hp
      rw [hstep.evalBlock heval]
      exact whenReady_held hm₂ hw hvalue context n frame
  · refine (EvalM.bind_of_ok heval).trans ((bind_of_keys hkeys hready).trans ?_)
    exact bindWith_of_error hfails
  · have hresume : (engine context (k + 2)).resume
        (.bindKeys (.promise p) pattern (.block (next :: rest))) (.tuple keys) m₂ = _ :=
      bindWith_of_pending hpending
    rw [hresume]
    exact whenReady_held hm₂ hp₂ hvalue context k _
  · exact bindWith_of_error hfails

theorem Engine.block_holds_back_failure :
    ∃ q s m₂ m₂',
      (engine Session.expecting.context 3).evalBlock
        [.run (.identifier "later"), .run (.call (.identifier "emit") [.literal (.int 1)] none)]
        Session.expecting.machine = .ok (.promise q) (Session.expecting.machine.withStore s) ∧
      Turn.runAll (engine Session.expecting.context 5) [.fulfil ⟨0⟩ (.error .interrupted)]
        (Session.expecting.machine.withStore s) = .ok () m₂ ∧
      Turn.runAll (observed q Session.expecting.context 5) [.fulfil ⟨0⟩ (.error .interrupted)]
        (Session.expecting.machine.withStore s) = .ok () m₂' ∧
      Twin 0 m₂ m₂' ∧ m₂.store.outcome? q = some (.error .interrupted) := by
  have heval : (engine Session.expecting.context 3).eval (.identifier "later")
      Session.expecting.machine = .ok (.promise ⟨0⟩) Session.expecting.machine := rfl
  obtain ⟨q, s, hblock, hturns⟩ := (Engine.block_holds_back Session.sound_expecting heval
    Nat.zero_lt_one (.run (.call (.identifier "emit") [.literal (.int 1)] none)) []).1
      _ _ _ _ .run nofun
  have hanswer := hblock
  cases hanswer
  obtain ⟨-, hturns⟩ := hturns [.fulfil ⟨0⟩ (.error .interrupted)] fun p o hmem hp => by
    cases hmem with
    | head => cases hp
    | tail _ hmem => cases hmem
  obtain ⟨d, m₂', hrun, twin, hheld⟩ := hturns 5 _ rfl
  obtain ⟨rfl, hfailed⟩ := hheld.failed .interrupted rfl
  exact ⟨_, _, _, m₂', hblock, rfl, hrun, twin, hfailed⟩

/-- A step that binds a plain name does not wait: the step after it has written to the log while the
promise is pending. -/
theorem Engine.block_bind_runs_ahead :
    let s := (Session.expecting.run (.eval (.block [.bind (.bind "x") (.identifier "later"),
      .run (.call (.identifier "emit") [.literal (.int 1)] none)]) none)).1
    s.machine.store.outcome? ⟨0⟩ = none ∧ s.machine.rest.log.length = 1 :=
  ⟨rfl, rfl⟩

end Deferral
