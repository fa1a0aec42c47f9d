import Deferral.Proofs.Eval.Delivery

/-!
# Interruption prevails

An interrupted evaluation ends with a bare interruption, however deeply it is nested in others: no
handler catches it, nothing is tried in its place, and no stack is attached to it on the way out. To
say so, `wrapped` puts a wrapper around each evaluation of an expression. With `EvalM.breaking` an
evaluation that comes to an interruption ends the whole run there and then, with something that no
program can catch; with `EvalM.heeding` a run ends where an expression is to be evaluated although the
interrupt flag is set. Both make no difference but for what the run ends with
(`interruption_prevails`).

Tasks and continuations are runs of their own, which give their failure to a promise. Evaluations in
them are left alone, unless there can be no such runs: in code that starts no tasks, among functions
that start none, as long as no promise is settled. There the wrapper is put around every evaluation.
-/

set_option autoImplicit false

namespace Deferral

/-! ## Code that starts no tasks -/

/-- There is no task anywhere in the expression. -/
inductive Expr.Sequential : Expr → Prop
  | mk {e : Expr} (plain : ∀ f, e ≠ .spawn f) (parts : ∀ e' ∈ e.parts, Sequential e') : Sequential e

/-- Nothing can start a run of its own: no function starts tasks, and no promise is settled. -/
structure Machine.Sequential (m : Machine) : Prop where
  unsettled : ∀ p, m.store.outcome? p = none
  functions : ∀ id f params body, m.function? id = some f → f.body = .code params body →
    body.Sequential

/-! ## Wrappers -/

/-- Ends with `a` where the computation ends with a bare interruption. -/
def EvalM.breaking (a : Abort) (x : EvalM Value) : EvalM Value := fun m =>
  match x m with
  | .error (.error .interrupted) m => .error a m
  | result => result

/-- Ends with `a` at once, if the interrupt flag is set. -/
def EvalM.heeding (a : Abort) (x : EvalM Value) : EvalM Value := fun m =>
  if m.rest.interrupted then .error a m else x m

/-! ## The bond -/

/-- The same machine on both sides. What is kept up beside that is only needed if the wrapper is
everywhere. -/
def Bond.interruptible (everywhere : Bool) (a : Abort) : Bond where
  Code e := everywhere = true → e.Sequential
  Scope _ := True
  Failure _ := True
  Spawns := everywhere = false
  Paired _ m m' := m = m' ∧ (everywhere = true → m.Sequential)
  Given _ := everywhere = false
  Breach b := b = a

section

open Bond

variable {everywhere : Bool} {a : Abort}

namespace Machine.Sequential

variable {m : Machine} (h : m.Sequential)
include h

/-- Functions and outcomes are all that counts. -/
theorem of_same {m' : Machine} (hfunctions : m'.rest.functions = m.rest.functions)
    (houtcome : ∀ p, m'.store.outcome? p = m.store.outcome? p) : m'.Sequential := by
  refine ⟨fun p => (houtcome p).trans (h.unsettled p), fun id f params body hf => ?_⟩
  rw [function?, hfunctions] at hf
  exact h.functions id f params body hf

theorem withFunction {f : Function}
    (hf : ∀ params body, f.body = .code params body → body.Sequential) :
    (m.withFunction f).Sequential := by
  refine ⟨h.unsettled, fun id g params body hg hbody => ?_⟩
  rw [function?, Machine.withFunction, Array.getElem?_push] at hg
  split at hg
  · obtain rfl := Option.some.inj hg
    exact hf params body hbody
  · exact h.functions id g params body hg hbody

end Machine.Sequential

theorem Bond.lawful_interruptible (ha : ∀ e, a ≠ .error e) : (interruptible everywhere a).Lawful where
  same := by
    rintro F m m' ⟨rfl, -⟩
    rfl
  scope _ := trivial
  callable h hf params body hbody heverywhere :=
    (h.2 heverywhere).functions _ _ params body hf hbody
  outcome := by
    rintro F m m' p o ⟨-, h⟩ ho
    cases everywhere with
    | false => rfl
    | true =>
      rw [(h rfl).unsettled p] at ho
      cases ho
  withEnv := by
    rintro F m m' env ⟨rfl, h⟩ -
    exact ⟨rfl, fun he => (h he).of_same rfl fun _ => rfl⟩
  withFunction := by
    rintro F m m' f ⟨rfl, h⟩ hf
    exact ⟨rfl, fun he => (h he).withFunction fun params body hbody => hf params body hbody he⟩
  withModules := by
    rintro F m m' modules ⟨rfl, h⟩
    exact ⟨rfl, fun he => (h he).of_same rfl fun _ => rfl⟩
  interrupt := by
    rintro F m m' ⟨rfl, h⟩
    exact ⟨rfl, fun he => (h he).of_same rfl fun _ => rfl⟩
  addLog := by
    rintro F m m' entries ⟨rfl, h⟩
    exact ⟨rfl, fun he => (h he).of_same rfl fun _ => rfl⟩
  parts h e' he' heverywhere := by
    obtain ⟨-, hparts⟩ := h heverywhere
    exact hparts e' he'
  spawns := by
    intro e h
    cases everywhere with
    | false => rfl
    | true =>
      obtain ⟨hplain, -⟩ := h rfl
      exact absurd rfl (hplain e)
  openFrame _ := trivial
  closeFrame _ := trivial
  grow _ _ := trivial
  plain _ := trivial
  raised _ _ _ := trivial
  withStack _ _ := trivial
  given _ := trivial
  uncaught := by
    rintro _ rfl
    exact ha

/-- Nothing is settled by putting something down for later. -/
theorem Bond.deferring_interruptible (ha : ∀ e, a ≠ .error e) :
    (interruptible true a).Deferring where
  toLawful := lawful_interruptible ha
  fresh := by
    rintro F m m' ⟨rfl, h⟩
    refine ⟨rfl, fun he => (h he).of_same rfl fun p => ?_⟩
    simp only [Machine.withStore, Store.outcome?, Store.state_fresh]
  derived := by
    rintro F m m' p k ⟨rfl, h⟩ -
    refine ⟨rfl, fun he => (h he).of_same rfl fun p => ?_⟩
    simp only [Machine.withStore, Store.outcome?, Store.state_fresh]
  gathering := by
    rintro F m m' g ⟨rfl, h⟩
    exact ⟨rfl, fun he => (h he).of_same rfl fun _ => rfl⟩
  launched h _ _ := h
  registered := by
    rintro F m m' p k ks ⟨rfl, h⟩ hp
    exact ⟨rfl, fun he => (h he).of_same rfl (Store.outcome?_register_eq hp)⟩

/-- There is nothing to be delivered. -/
theorem lands_interruptible (E E' : Engine) : Lands (interruptible true a) E E' := by
  rintro F m m' p k o ⟨-, h⟩ ho
  rw [(h rfl).unsettled p] at ho
  cases ho

/-- The same computation on both sides. -/
theorem Bond.together_self {α : Type} (x : EvalM α) : (interruptible false a).Together x x := by
  rintro F m m' ⟨rfl, -⟩
  cases x m with
  | ok v m₁ => exact .ok v ⟨rfl, nofun⟩
  | error e m₁ => exact .error e (fun _ _ => trivial) ⟨rfl, nofun⟩

/-! ## Engines -/

/-- A wrapper that makes a difference only to interruptions. -/
def Heeds (everywhere : Bool) (a : Abort) (wrap : EvalM Value → EvalM Value) : Prop :=
  ∀ (E E' : Engine) (e : Expr),
    (interruptible everywhere a).Together (E.evalStep e) (E'.evalStep e) →
      (interruptible everywhere a).Together (E.evalStep e) (wrap (E'.evalStep e))

/-- The wrapped engine goes along with the engine, but for interruptions. -/
theorem tandem_wrapped (ha : ∀ e, a ≠ .error e) {wrap : EvalM Value → EvalM Value}
    (hwrap : Heeds everywhere a wrap) (context : Context) (n : Nat) :
    Tandem (interruptible everywhere a) (engine context n) (wrapped wrap everywhere context n) := by
  have L : (interruptible everywhere a).Lawful := lawful_interruptible ha
  -- whatever is put down for later, nothing is delivered that could make a difference
  have hput : ∀ n, (∀ p (h : Handler), h.Fine (interruptible everywhere a).toTerms →
      (interruptible everywhere a).Together (Promise.derive (engine context n).deliver p h)
        (Promise.derive (wrapped wrap everywhere context n).deliver p h)) ∧
      ∀ vs : List Value, vs.any Value.isPromise = true →
        (interruptible everywhere a).Together (Promise.all (engine context n).deliver vs)
          (Promise.all (wrapped wrap everywhere context n).deliver vs) := by
    intro n
    cases everywhere with
    | true =>
      have hD := lands_interruptible (a := a) (engine context n) (wrapped wrap true context n)
      have D := deferring_interruptible ha
      exact ⟨fun p _ => hD.derive D p, fun _ => hD.all D⟩
    | false =>
      rw [wrapped_deliver]
      exact ⟨fun _ _ _ => together_self _, fun _ _ => together_self _⟩
  have hbuild : ∀ n, (∀ e, (interruptible everywhere a).Code e →
      (interruptible everywhere a).Together ((engine context n).eval e)
        ((wrapped wrap everywhere context n).eval e)) →
      (∀ w : Work, w.Fine (interruptible everywhere a).toTerms →
        (interruptible everywhere a).Together ((engine context n).proceed w)
          ((wrapped wrap everywhere context n).proceed w)) →
      (∀ (frame : Frame) v, frame.Fine (interruptible everywhere a).toTerms →
        (interruptible everywhere a).Together ((engine context n).resume frame v)
          ((wrapped wrap everywhere context n).resume frame v)) →
      Tandem (interruptible everywhere a) (engine context n) (wrapped wrap everywhere context n) := by
    intro n heval hproceed hresume
    refine ⟨L, ?_, fun _ _ _ _ => trivial, fun id f args location caller _ => ?_, heval, hproceed,
      hresume, (hput n).1, (hput n).2⟩
    · rw [wrapped_context, engine_context]
    · cases bodyEnvironment (engine context n).context.maxCallDepth id f args location caller with
      | ok env => trivial
      | error e => trivial
  induction n with
  | zero => exact hbuild 0 (fun _ _ => .outOfFuel) (fun _ _ => .outOfFuel) fun _ _ _ => .outOfFuel
  | succ n ih =>
    refine hbuild (n + 1) (fun e he => hwrap _ _ e (ih.evalStep he))
      (fun w hw => ih.proceedStep hw) fun frame v hframe => ?_
    by_cases hspawn : frame = .spawn
    · subst hspawn
      obtain rfl : everywhere = false := hframe
      exact together_self _
    · have hresume := ih.resumeStep hframe v fun h => absurd h hspawn
      have hright : (wrapped wrap everywhere context (n + 1)).resume frame v =
          (wrapped wrap everywhere context n).resumeStep frame v := by
        cases frame with
        | spawn => exact absurd rfl hspawn
        | _ => rfl
      rw [hright]
      exact hresume

/-- Broken off, two runs that go along are the same. -/
theorem EvalM.breaking_of_meets (ha : ∀ e, a ≠ .error e) {F : InFlight} {m m' : Machine}
    {x y : EvalM Value} (h : (interruptible everywhere a).Meets F (x m) (y m')) :
    EvalM.breaking a y m' = EvalM.breaking a x m := by
  unfold EvalM.breaking
  generalize x m = r, y m' = r' at h
  cases h with
  | ok v h =>
    obtain rfl := h.1
    rfl
  | error e he h =>
    obtain rfl := h.1
    rfl
  | @breach b hb m₁ m₁' h =>
    obtain rfl := h.1
    obtain rfl : b = a := hb
    cases b with
    | error e => exact absurd rfl (ha e)
    | panic payload => rfl
    | outOfFuel => rfl

theorem heeds_breaking (ha : ∀ e, a ≠ .error e) : Heeds everywhere a (EvalM.breaking a) := by
  intro E E' e h F m m' hm
  have hr := h F m m' hm
  unfold EvalM.breaking
  generalize E.evalStep e m = r, E'.evalStep e m' = r' at hr ⊢
  cases hr with
  | ok v h => exact .ok v h
  | error x he h =>
    cases x with
    | error x =>
      cases x with
      | interrupted => exact .breach rfl h
      | _ => exact .error _ he h
    | panic payload => exact .error _ he h
    | outOfFuel => exact .error _ he h
  | @breach b hb m₁ m₁' h =>
    obtain rfl : b = a := hb
    cases b with
    | error e => exact absurd rfl (ha e)
    | panic payload => exact .breach rfl h
    | outOfFuel => exact .breach rfl h

theorem heeds_heeding : Heeds everywhere a (EvalM.heeding a) := by
  intro E E' e h F m m' hm
  unfold EvalM.heeding
  split
  · rename_i hflag
    obtain rfl := hm.1
    have hleft : E.evalStep e m = .error (.error .interrupted) m := by
      simp only [Engine.evalStep, EvalM.gets, Bind.bind, EStateM.bind, hflag]
      rfl
    rw [hleft]
    exact .breach rfl hm
  · exact h F m m' hm

/-- Broken off a second time, a run is the same. -/
theorem EvalM.breaking_breaking (ha : ∀ e, a ≠ .error e) (x : EvalM Value) :
    EvalM.breaking a (EvalM.breaking a x) = EvalM.breaking a x := by
  funext m
  unfold EvalM.breaking
  cases x m with
  | ok v m₁ => rfl
  | error b m₁ =>
    cases b with
    | error e =>
      cases e with
      | interrupted =>
        cases a with
        | error e => exact absurd rfl (ha e)
        | panic payload => rfl
        | outOfFuel => rfl
      | _ => rfl
    | panic payload => rfl
    | outOfFuel => rfl

theorem breaking_wrapped_eval (ha : ∀ e, a ≠ .error e) (context : Context) (n : Nat) (e : Expr) :
    EvalM.breaking a ((wrapped (EvalM.breaking a) everywhere context n).eval e) =
      (wrapped (EvalM.breaking a) everywhere context n).eval e := by
  cases n with
  | zero => rfl
  | succ n => exact EvalM.breaking_breaking ha _

end

/-- A failure that is an interruption is not handled, whatever the handler. -/
theorem Engine.evalAttempt_of_interrupted (E : Engine) {body : Expr} (arms : List Arm)
    {m m' : Machine} (h : EvalM.inFrame (E.eval body) m = .error (.error .interrupted) m') :
    E.evalAttempt body arms m = .error (.error .interrupted) m' := by
  have houtcome : EvalM.outcome (EvalM.inFrame (E.eval body)) m = .ok (.error .interrupted) m' := by
    rw [EvalM.outcome, h]
  exact EvalM.bind_of_ok houtcome

/-- An interruption prevails over all code that it happens in. First, a run that breaks off with the
first evaluation in it to end with a bare interruption ends where the run of the engine ends with a
bare interruption, in the same machine, and is the same otherwise: so nothing is done once an
evaluation has been interrupted, and nothing else comes of it. Second, unless the run ends with a bare
interruption, no expression is evaluated in it when the flag is set. Third, a `try` whose body is
interrupted is, whatever its arms.

The evaluations in it are those of the code itself, of functions that it calls, and so on. If the code
and the functions start no tasks, and no promise is settled, they are all the evaluations there are. -/
theorem interruption_prevails (context : Context) (n : Nat) (e : Expr) (m : Machine)
    (everywhere : Bool) (halone : everywhere = true → e.Sequential ∧ m.Sequential) :
    (∀ a, (∀ x, a ≠ .error x) →
      (wrapped (EvalM.breaking a) everywhere context n).eval e m =
        EvalM.breaking a ((engine context n).eval e) m) ∧
    ((∀ a, (∀ x, a ≠ .error x) →
        (wrapped (EvalM.heeding a) everywhere context n).eval e m = (engine context n).eval e m) ∨
      ∃ m', (engine context n).eval e m = .error (.error .interrupted) m') ∧
    ∀ (E : Engine) (body : Expr) (arms : List Arm) (m m' : Machine),
      EvalM.inFrame (E.eval body) m = .error (.error .interrupted) m' →
        E.evalAttempt body arms m = .error (.error .interrupted) m' := by
  have hpaired : ∀ a, (Bond.interruptible everywhere a).Paired 0 m m :=
    fun a => ⟨rfl, fun he => (halone he).2⟩
  have hcode : ∀ a, (Bond.interruptible everywhere a).Code e := fun a he => (halone he).1
  refine ⟨fun a ha => ?_, ?_, fun E _ arms _ _ => E.evalAttempt_of_interrupted arms⟩
  · have hheeds : Heeds everywhere a (EvalM.breaking a) := heeds_breaking ha
    have T := tandem_wrapped ha hheeds context n
    rw [← EvalM.breaking_of_meets ha (T.eval e (hcode a) 0 m m (hpaired a)), breaking_wrapped_eval ha]
  · by_cases hinterrupted : ∃ m', (engine context n).eval e m = .error (.error .interrupted) m'
    · exact .inr hinterrupted
    · refine .inl fun a ha => ?_
      have hheeds : Heeds everywhere a (EvalM.heeding a) := heeds_heeding
      have T := tandem_wrapped ha hheeds context n
      have hr := T.eval e (hcode a) 0 m m (hpaired a)
      generalize (engine context n).eval e m = r,
        (wrapped (EvalM.heeding a) everywhere context n).eval e m = r' at hr hinterrupted
      cases hr with
      | ok v h => rw [h.1]
      | error x he h => rw [h.1]
      | breach hb h => exact absurd ⟨_, rfl⟩ hinterrupted

/-- A program that interrupts itself in the body of a `try` that would handle anything. -/
def stubborn : Expr :=
  .attempt (.tuple [.call (.identifier "interrupt") [] none, .literal .unit])
    [.mk .wildcard [(none, .literal .unit)]]

theorem interruption_prevails_stubborn :
    let context : Context := ⟨100, .immediate, Session.host⟩
    let m := Session.defineNative .empty "interrupt" (.host "interrupt") 0
    (stubborn.Sequential ∧ m.Sequential) ∧
    (wrapped (EvalM.breaking (.panic none)) true context 10).eval stubborn m =
      EvalM.breaking (.panic none) ((engine context 10).eval stubborn) m ∧
    ∃ m', (engine context 10).eval stubborn m = .error (.error .interrupted) m' := by
  intro context m
  have hliteral : ∀ v, (Expr.literal v).Sequential := fun v => ⟨nofun, nofun⟩
  have hcall : (Expr.call (.identifier "interrupt") [] none).Sequential := by
    refine ⟨nofun, fun e he => ?_⟩
    rw [List.mem_singleton.1 he]
    exact ⟨nofun, nofun⟩
  have hcode : stubborn.Sequential := by
    refine ⟨nofun, fun e he => ?_⟩
    rcases List.mem_cons.1 he with rfl | he
    · refine ⟨nofun, fun e he => ?_⟩
      rcases List.mem_cons.1 he with rfl | he
      · exact hcall
      · rw [List.mem_singleton.1 he]
        exact hliteral _
    · rw [List.mem_singleton.1 he]
      exact hliteral _
  have hmachine : m.Sequential := by
    refine ⟨fun p => ?_, fun id f params body hf hbody => ?_⟩
    · exact congrArg PromiseState.outcome? (Store.state_of_not_has (Nat.not_lt_zero _))
    · have hnative : f = .ofNative "interrupt" (.host "interrupt") 0 := by
        have hmem : f ∈ m.rest.functions := Array.mem_of_getElem? hf
        simpa [m, Session.defineNative, Machine.empty] using hmem
      subst hnative
      cases hbody
  obtain ⟨hbreaking, -⟩ :=
    interruption_prevails context 10 stubborn m true fun _ => ⟨hcode, hmachine⟩
  exact ⟨⟨hcode, hmachine⟩, hbreaking (.panic none) nofun, _, rfl⟩

end Deferral
