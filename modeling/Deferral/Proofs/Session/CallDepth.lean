import Deferral.Proofs.Session.Upheld

/-!
# The limit of calls

Code runs in environments that have been copied: into functions, into continuations that wait for
promises, into tasks that wait to be run. So that no code runs beyond the limit of calls is an invariant
about all the environments that are kept somewhere (`Machine.Limited`). It is a bond between a machine
and itself, and the two engines in tandem are the engine and one that gives up wherever code is about to
be run beyond the limit, or where an overflow is reported that is not the limit's (`EvalM.limiting`).

A host may supply errors of its own, as outcomes of promises or as answers of its operations. Overflows
among those are told apart by their numbers.
-/

set_option autoImplicit false

namespace Deferral

/-! ## Errors and environments within the limit -/

/-- An overflow reports the limit of calls as the depth and as the limit, unless a host has supplied
it. -/
def Error.measured (max : Nat) (supplied : Nat → Nat → Bool) (e : Error) : Bool :=
  match e.root with
  | .stackOverflow depth limit => (depth == max && limit == max) || supplied depth limit
  | _ => true

/-- Ends with `a` where the computation would be run beyond the limit of calls, and where it reports an
overflow that is not the limit's. -/
def EvalM.limiting (max : Nat) (supplied : Nat → Nat → Bool) (a : Abort) (x : EvalM Value) :
    EvalM Value := fun m =>
  if max < m.rest.env.callDepth then .error a m
  else
    match x m with
    | .error (.error e) m => if e.measured max supplied then .error (.error e) m else .error a m
    | result => result

/-- Any code, in environments within the limit of calls. -/
def Terms.limited (max : Nat) (supplied : Nat → Nat → Bool) : Terms where
  Code _ := True
  Scope env := env.callDepth ≤ max
  Failure e := e.measured max supplied = true
  Spawns := True

/-- All environments that are kept in a machine and in flight are within the limit of calls, and
overflows are the limit's. -/
structure Machine.Limited (max : Nat) (supplied : Nat → Nat → Bool) (F : InFlight) (m : Machine) :
    Prop where
  running : m.rest.env.callDepth ≤ max
  waiting : ∀ w ∈ m.store.waits + F, w.2.Fine (.limited max supplied)
  failed : ∀ p e, m.store.outcome? p = some (.error e) → e.measured max supplied = true
  queued : ∀ task ∈ m.rest.queue, task.caller.callDepth ≤ max

/-- The same machine on both sides, within the limit of calls. -/
def Bond.limited (max : Nat) (supplied : Nat → Nat → Bool) : Bond where
  toTerms := .limited max supplied
  Paired F m m' := m = m' ∧ m.Limited max supplied F
  Given o := ∀ e, o = .error e → e.measured max supplied = true
  Breach _ := False

section

variable {max : Nat} {supplied : Nat → Nat → Bool} {F : InFlight} {m : Machine}

theorem Error.measured_of_isPlain {e : Error} (h : e.isPlain = true) :
    e.measured max supplied = true := by
  cases e with
  | stackOverflow depth limit => cases h
  | traced cause stack => cases h
  | _ => rfl

theorem Error.measured_withStack (stack : StackTrace) (e : Error) :
    (e.withStack stack).measured max supplied = e.measured max supplied := by
  simp only [measured, root_withStack]

theorem Error.measured_limit : (Error.stackOverflow max max).measured max supplied = true := by
  simp [measured, root]

/-! ## The bond -/

theorem Machine.limited_iff : m.Limited max supplied F ↔ m.Upholds (.limited max supplied) F :=
  ⟨fun ⟨hrunning, hwaiting, hfailed, hqueued⟩ => ⟨hrunning, hwaiting, hfailed, hqueued⟩,
    fun ⟨hrunning, hwaiting, hfailed, hqueued⟩ => ⟨hrunning, hwaiting, hfailed, hqueued⟩⟩

theorem Bond.limited_eq : limited max supplied = upholding (.limited max supplied) := by
  simp only [limited, upholding, Machine.limited_iff]
  rfl

theorem Terms.closed_limited : (Terms.limited max supplied).Closed where
  code _ := trivial
  spawns := trivial
  openFrame h := h
  closeFrame := by
    intro env h
    change env.closeFrame.callDepth ≤ max
    rw [env.callDepth_closeFrame]
    exact h
  grow _ h := h
  setModule _ h := h
  plain := Error.measured_of_isPlain
  raised _ _ _ := rfl
  withStack := by
    intro env e _ h
    change (e.withStack env.calls).measured max supplied = true
    rw [e.measured_withStack]
    exact h

theorem Bond.settling_limited : (limited max supplied).Settling :=
  limited_eq ▸ settling_upholding Terms.closed_limited

/-! ## Engines -/

/-- A call within the limit is entered within the limit, or is refused at the limit. -/
theorem enters_limited (id : FunctionId) (f : Function) (args : List Value)
    (location : Option Location) {caller : Environment} (h : caller.callDepth ≤ max) :
    (Bond.limited max supplied).Enters (bodyEnvironment max id f args location caller) := by
  rcases Engine.bodyEnvironment_cases max id f args location caller with
    ⟨hfull, hrefused⟩ | ⟨hroom, env, henv, hdepth⟩
  · rw [hrefused, Nat.le_antisymm h hfull]
    exact Error.measured_limit
  · rw [henv]
    change env.callDepth ≤ max
    omega

/-- Within the limit, giving up beyond it makes no difference. -/
theorem spares_limiting (a : Abort) : Spares (.limited max supplied) (.limiting max supplied a) := by
  intro x y h F m m' hm
  have hr := h F m m' hm
  obtain ⟨rfl, hlimited⟩ := hm
  rw [EvalM.limiting, if_neg (Nat.not_lt.2 hlimited.running)]
  generalize x m = r, y m = r' at hr
  cases hr with
  | ok v h => exact .ok v h
  | error e he h =>
    cases e with
    | error e =>
      have hmeasured : e.measured max supplied = true := he e rfl
      dsimp only
      rw [if_pos hmeasured]
      exact .error _ he h
    | panic payload => exact .error _ he h
    | outOfFuel => exact .error _ he h
  | breach ha h => exact ha.elim

end

/-- The engine that gives up with `a` where code is about to be run beyond the limit of calls, and
where an overflow is reported that is not the limit's. -/
def confined (supplied : Nat → Nat → Bool) (a : Abort) (context : Context) (n : Nat) : Engine :=
  wrapped (EvalM.limiting context.maxCallDepth supplied a) true context n

/-- The overflows that the operations of the host answer with are supplied. -/
def Context.Supplies (context : Context) (supplied : Nat → Nat → Bool) : Prop :=
  ∀ name args e, (context.host name args).answer = .error e →
    e.measured context.maxCallDepth supplied = true

theorem Context.Supplies.upholds {context : Context} {supplied : Nat → Nat → Bool}
    (h : context.Supplies supplied) : context.Upholds (.limited context.maxCallDepth supplied) :=
  ⟨h, fun id f args location _ hcaller =>
    Bond.limited_eq ▸ enters_limited id f args location hcaller⟩

/-- The engine that gives up does what the engine does. -/
theorem shadow_confined {context : Context} {supplied : Nat → Nat → Bool}
    (hhost : context.Supplies supplied) (a : Abort) :
    (Bond.limited context.maxCallDepth supplied).Shadow context (confined supplied a context) :=
  Bond.limited_eq ▸ shadow_upholding Terms.closed_limited (spares_limiting a) hhost.upholds

/-! ## Sessions -/

namespace Session

/-- The sessions that come about if the host itself keeps to the limit of calls: the settings have the
same limit all the time, no environment is entered beyond it, and overflows that the host makes the
outcome of a promise or the answer of an operation are supplied. -/
inductive Within (max : Nat) (supplied : Nat → Nat → Bool) : Session → Prop
  | start (executor : Executor) (withPrelude withHost : Bool) :
      Within max supplied (start executor max withPrelude withHost)
  | settings {s : Session} (h : Within max supplied s) {context : Context}
      (hmax : context.maxCallDepth = max) (hhost : context.Supplies supplied) (fuel : Nat) :
      Within max supplied { s with context, fuel }
  | native {s : Session} (h : Within max supplied s) (name : String) (operation : Native)
      (arity : Nat) :
      Within max supplied { s with machine := defineNative s.machine name operation arity }
  | run {s : Session} (h : Within max supplied s) {c : Command}
      (hc : c.Fine (.limited max supplied) s.environment) : Within max supplied (s.run c).1
  | takeLog {s : Session} (h : Within max supplied s) : Within max supplied s.takeLog.2

variable {max : Nat} {supplied : Nat → Nat → Bool} {s : Session}

/-- The host of a session supplies no overflows. -/
theorem supplies_host (executor : Executor) : (Context.mk max executor host).Supplies supplied := by
  intro name args e he
  refine Error.measured_of_isPlain ?_
  simp only [host] at he
  split at he <;> cases he <;> rfl

/-- What holds of a session within the limit of calls. -/
structure Confined (max : Nat) (supplied : Nat → Nat → Bool) (s : Session) : Prop where
  max_eq : s.context.maxCallDepth = max
  supplies : s.context.Supplies supplied
  limited : s.machine.Limited max supplied 0

/-- Commands are carried out within the limit of calls. -/
theorem Confined.inStep (h : s.Confined max supplied) (a : Abort) {c : Command}
    (hc : c.Fine (.limited max supplied) s.environment) :
    Replies (Alongside (.limited max supplied) s.context) (s.run c)
      (s.runWith (confined supplied a s.context s.fuel) c) := by
  obtain ⟨rfl, hhost, hlimited⟩ := h
  rw [Bond.limited_eq] at hc ⊢
  exact inStep_upholding Terms.closed_limited (spares_limiting a) hhost.upholds rfl
    (Machine.limited_iff.1 hlimited) hc

theorem Within.confined (h : s.Within max supplied) : s.Confined max supplied := by
  induction h with
  | start executor withPrelude withHost =>
    refine ⟨rfl, supplies_host executor, Machine.limited_iff.2 ?_⟩
    exact upholds_start Terms.closed_limited (Nat.zero_le max) executor max withPrelude withHost
  | settings _ hmax hhost fuel ih => exact ⟨hmax, hhost, ih.limited⟩
  | native _ name operation arity ih =>
    refine ⟨ih.max_eq, ih.supplies, Machine.limited_iff.2 ?_⟩
    exact upholds_native Terms.closed_limited (Machine.limited_iff.1 ih.limited) name operation arity
  | @run s _ c hc ih =>
    obtain ⟨hcontext, -, hpaired⟩ := (ih.inStep .outOfFuel hc).sessions
    refine ⟨?_, ?_, hpaired.2⟩
    · rw [hcontext]
      exact ih.max_eq
    · rw [hcontext]
      exact ih.supplies
  | takeLog _ ih =>
    refine ⟨ih.max_eq, ih.supplies, Machine.limited_iff.2 ?_⟩
    exact (Machine.limited_iff.1 ih.limited).of_same rfl rfl rfl

end Session

/-- A refused call changes nothing. -/
theorem Engine.invoke_refused (E : Engine) (id : FunctionId) {f : Function} {params : List String}
    {body : Expr} (hbody : f.body = .code params body) {args : List Value}
    (hcount : args.length = params.length) (location : Option Location) {m : Machine}
    (hfull : E.context.maxCallDepth ≤ m.rest.env.callDepth) :
    E.invoke id f args location m =
      .error (.error (.stackOverflow m.rest.env.callDepth E.context.maxCallDepth)) m := by
  have harity : ¬args.length ≠ f.arity := by
    rw [Function.arity, hbody]
    exact fun h => h hcount
  have hrefused : bodyEnvironment E.context.maxCallDepth id f args location m.rest.env =
      .error (.stackOverflow m.rest.env.callDepth E.context.maxCallDepth) := by
    rcases bodyEnvironment_cases E.context.maxCallDepth id f args location m.rest.env with
      ⟨-, h⟩ | ⟨hroom, -⟩
    · exact h
    · exact absurd hfull (Nat.not_le.2 hroom)
  rw [invoke, if_neg harity, hbody]
  simp only [EvalM.environment, EvalM.gets, Bind.bind, EStateM.bind, hrefused]
  rfl

/-- The limit of calls holds everywhere, in all sessions whose host keeps to it. First, all the
environments that are kept in the machine are within it, and promises hold no other overflows than the
limit's. Second, a command has the same effect and the same response if evaluation gives up wherever it
is beyond the limit, and wherever an overflow is reported that is not the limit's: whether code is run
directly, by a continuation or by a task. Third, a call by the host reports no other overflow. Fourth, a
call that is refused reports the limit and leaves the machine as it was, and so does a call that the
host itself enters and that is refused. -/
theorem call_depth_limited {max : Nat} {supplied : Nat → Nat → Bool} {s : Session}
    (h : s.Within max supplied) :
    s.machine.Limited max supplied 0 ∧
    (∀ (a : Abort) (c : Command), c.Fine (.limited max supplied) s.environment →
      s.runWith (confined supplied a s.context s.fuel) c = s.run c) ∧
    (∀ callee args e m', s.engine.callFunction callee args s.machine = .error (.error e) m' →
      e.measured max supplied = true) ∧
    (∀ id f params body args location F m, f.body = .code params body → args.length = params.length →
      m.Limited max supplied F → max ≤ m.rest.env.callDepth →
      s.engine.invoke id f args location m = .error (.error (.stackOverflow max max)) m) ∧
    ∀ frame limit, limit ≤ s.environment.callDepth → (s.run (.enterCall frame limit)).1 = s := by
  obtain ⟨rfl, hhost, hlimited⟩ := h.confined
  have hcontext : s.engine.context = s.context := engine_context _ _
  refine ⟨hlimited, fun a c hc => ?_, fun callee args e m' hr => ?_, ?_, fun frame limit hfull => ?_⟩
  · obtain ⟨⟨-, hsame, hpaired⟩, hresponse⟩ := h.confined.inStep a hc
    have hsession : (s.runWith (confined supplied a s.context s.fuel) c).1 = (s.run c).1 := by
      rw [hsame, ← hpaired.1]
    exact Prod.ext hsession hresponse
  · obtain ⟨T, -⟩ := (shadow_confined hhost .outOfFuel).tandem s.fuel
    have hmeets := T.callFunction callee args 0 s.machine s.machine ⟨rfl, hlimited⟩
    exact Bond.settling_limited.failure_of_meets (hr ▸ hmeets)
  · intro id f params body args location F m hbody hcount hm hfull
    rw [← hcontext] at hfull
    have hdepth : m.rest.env.callDepth = s.context.maxCallDepth :=
      Nat.le_antisymm hm.running (hcontext ▸ hfull)
    rw [Engine.invoke_refused _ id hbody hcount location hfull, hdepth, hcontext]
  · simp only [Session.run, Session.runWith, Environment.enterCall, if_pos hfull]

/-- A task that calls itself without an end. -/
def runaway : Expr := .spawn (.lambda (some "loop") [] (.call (.identifier "loop") [] none))

/-- A session with room for two calls. -/
def Session.shallow : Session :=
  { Session.start .immediate 2 false false with
    context := ⟨2, .immediate, Session.host⟩, fuel := 8 }

theorem call_depth_limited_runaway :
    Session.shallow.Within 2 (fun _ _ => false) ∧
    Session.shallow.runWith (confined (fun _ _ => false) (.panic none) Session.shallow.context
      Session.shallow.fuel) (.eval runaway none) = Session.shallow.run (.eval runaway none) ∧
    ∃ stack, (Session.shallow.run (.eval runaway none)).1.machine.store.outcome? ⟨0⟩ =
      some (.error (.traced (.stackOverflow 2 2) stack)) := by
  have hwithin : Session.shallow.Within 2 (fun _ _ => false) :=
    .settings (.start .immediate false false) rfl (Session.supplies_host .immediate) 8
  obtain ⟨-, hrun, -⟩ := call_depth_limited hwithin
  exact ⟨hwithin, hrun (.panic none) (.eval runaway none) trivial, _, rfl⟩

end Deferral
