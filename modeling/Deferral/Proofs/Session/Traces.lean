import Deferral.Proofs.Session.Upheld

/-!
# Traces of errors

An error passes through calls, handlers that do not match, promises that fail with it and tasks, and
every call on its way may attach a stack. It never carries more than one trace, and neither a raised
error nor an interruption is traced (`Error.wellTraced`), as long as a host supplies no others. So the
errors in a session are the ones that `Error.withStack` changes at most once, and a handler sees the
same tag and text however far away it is.
-/

set_option autoImplicit false

namespace Deferral

/-! ## Errors -/

namespace Error

/-- If the error is traced, then it is the trace of an error that took on no stack before. -/
def wellTraced : Error → Bool
  | .traced (.traced ..) _ => false
  | .traced (.raised ..) _ => false
  | .traced .interrupted _ => false
  | _ => true

variable (e : Error) (s t : StackTrace)

theorem wellTraced_of_isPlain {e : Error} (h : e.isPlain = true) : e.wellTraced = true := by
  cases e with
  | traced cause stack => cases h
  | _ => rfl

theorem wellTraced_withStack (h : e.wellTraced = true) : (e.withStack s).wellTraced = true := by
  cases e with
  | traced cause stack => exact h
  | _ => rfl

theorem withStack_withStack : (e.withStack s).withStack t = e.withStack s := by
  cases e <;> rfl

theorem tag_withStack : (e.withStack s).tag = e.tag := by
  cases e <;> rfl

theorem message_withStack (labels : Labels) : (e.withStack s).message labels = e.message labels := by
  cases e <;> rfl

theorem text_withStack (labels : Labels) : (e.withStack s).text labels = e.text labels := by
  rw [text, text, root_withStack]

theorem catchable_withStack : (e.withStack s).catchable = e.catchable := by
  rw [catchable, catchable, root_withStack]

/-- The error after it has left functions with these stacks, one after the other. -/
def through (traces : List StackTrace) (e : Error) : Error :=
  traces.foldl (fun e stack => e.withStack stack) e

/-- Only the first stack makes a difference. -/
theorem through_cons (rest : List StackTrace) : e.through (s :: rest) = e.withStack s := by
  induction rest with
  | nil => rfl
  | cons t rest ih =>
    change ((e.withStack s).withStack t).through rest = _
    rw [withStack_withStack]
    exact ih

/-- What a handler sees of an error, its stack aside, does not depend on the calls it has left. -/
theorem toTriple_through (traces : List StackTrace) (labels : Labels) (fallback : StackTrace) :
    ∃ trace, (e.through traces).toTriple labels fallback =
      .tuple [.symbol e.tag, .ofText (e.text labels), trace] := by
  cases traces with
  | nil => exact ⟨_, rfl⟩
  | cons s rest =>
    rw [through_cons, toTriple, tag_withStack, text_withStack]
    exact ⟨_, rfl⟩

end Error

/-! ## Engines -/

/-- Any code, in any environment, with errors that are well traced. -/
def Terms.wellTraced : Terms where
  Code _ := True
  Scope _ := True
  Failure e := e.wellTraced = true
  Spawns := True

theorem Terms.closed_wellTraced : Terms.wellTraced.Closed where
  code _ := trivial
  spawns := trivial
  openFrame _ := trivial
  closeFrame _ := trivial
  grow _ _ := trivial
  setModule _ _ := trivial
  plain := Error.wellTraced_of_isPlain
  raised _ _ _ := rfl
  withStack _ h := Error.wellTraced_withStack _ _ h

/-- Ends with `a` where the computation fails with an error that is not well traced. -/
def EvalM.vetting (a : Abort) (x : EvalM Value) : EvalM Value := fun m =>
  match x m with
  | .error (.error e) m => if e.wellTraced then .error (.error e) m else .error a m
  | result => result

theorem spares_vetting (a : Abort) : Spares .wellTraced (.vetting a) := by
  intro x y h F m m' hm
  have hr := h F m m' hm
  unfold EvalM.vetting
  generalize x m = r, y m' = r' at hr
  cases hr with
  | ok v h => exact .ok v h
  | error e he h =>
    cases e with
    | error e =>
      have hwell : e.wellTraced = true := he e rfl
      dsimp only
      rw [if_pos hwell]
      exact .error _ he h
    | panic payload => exact .error _ he h
    | outOfFuel => exact .error _ he h
  | breach ha h => exact ha.elim

/-- The engine that gives up with `a` wherever an evaluation fails with an error that is not well
traced. -/
def vetted (a : Abort) (context : Context) (n : Nat) : Engine :=
  wrapped (EvalM.vetting a) true context n

/-- The operations of the host fail with errors that are well traced. -/
def Context.WellTraced (context : Context) : Prop :=
  ∀ name args e, (context.host name args).answer = .error e → e.wellTraced = true

theorem Context.WellTraced.upholds {context : Context} (h : context.WellTraced) :
    context.Upholds .wellTraced := by
  refine ⟨h, fun id f args location caller _ => ?_⟩
  rcases Engine.bodyEnvironment_cases context.maxCallDepth id f args location caller with
    ⟨-, hrefused⟩ | ⟨-, env, henv, -⟩
  · rw [hrefused]
    rfl
  · rw [henv]
    trivial

/-! ## Sessions -/

namespace Session

/-- The sessions that come about if the errors that a host makes the outcome of a promise, or the answer
of an operation, are well traced. -/
inductive WellTraced : Session → Prop
  | start (executor : Executor) (maxCallDepth : Nat) (withPrelude withHost : Bool) :
      WellTraced (start executor maxCallDepth withPrelude withHost)
  | settings {s : Session} (h : WellTraced s) {context : Context} (hhost : context.WellTraced)
      (fuel : Nat) : WellTraced { s with context, fuel }
  | native {s : Session} (h : WellTraced s) (name : String) (operation : Native) (arity : Nat) :
      WellTraced { s with machine := defineNative s.machine name operation arity }
  | run {s : Session} (h : WellTraced s) {c : Command}
      (hc : c.Fine (.upholding .wellTraced) s.environment) : WellTraced (s.run c).1
  | takeLog {s : Session} (h : WellTraced s) : WellTraced s.takeLog.2

theorem wellTraced_host (executor : Executor) (maxCallDepth : Nat) :
    (Context.mk maxCallDepth executor host).WellTraced := by
  intro name args e he
  refine Error.wellTraced_of_isPlain ?_
  simp only [host] at he
  split at he <;> cases he <;> rfl

/-- All errors that are kept in such a session are well traced. -/
theorem WellTraced.upholds {s : Session} (h : s.WellTraced) :
    s.context.WellTraced ∧ s.machine.Upholds .wellTraced 0 := by
  have hclosed := Terms.closed_wellTraced
  induction h with
  | start executor maxCallDepth withPrelude withHost =>
    exact ⟨wellTraced_host executor maxCallDepth,
      upholds_start hclosed trivial executor maxCallDepth withPrelude withHost⟩
  | settings _ hhost fuel ih => exact ⟨hhost, ih.2⟩
  | native _ name operation arity ih =>
    exact ⟨ih.1, upholds_native hclosed ih.2 name operation arity⟩
  | @run s _ c hc ih =>
    obtain ⟨⟨hcontext, -, hpaired⟩, -⟩ :=
      inStep_upholding hclosed (spares_vetting .outOfFuel) ih.1.upholds rfl ih.2 hc
    refine ⟨?_, hpaired.2⟩
    rw [hcontext]
    exact ih.1
  | takeLog _ ih => exact ⟨ih.1, ih.2.of_same rfl rfl rfl⟩

end Session

/-- Errors carry at most one trace, in all sessions whose host supplies only such errors. First, the
errors of promises are well traced. Second, so are the errors with which the host sees an evaluation or
a call end. Third, a command has the same effect and the same response if evaluation gives up wherever
some expression is evaluated, by whatever continuation or task, with an error that is not well traced.
Fourth, a stack is attached once and changes nothing but the stack, so that a handler sees the same tag
and text whatever calls an error has left. -/
theorem errors_traced_once {s : Session} (h : s.WellTraced) :
    (∀ p e, s.machine.store.outcome? p = some (.error e) → e.wellTraced = true) ∧
    (∀ expr e m', s.engine.eval expr s.machine = .error (.error e) m' → e.wellTraced = true) ∧
    (∀ callee args e m', s.engine.callFunction callee args s.machine = .error (.error e) m' →
      e.wellTraced = true) ∧
    (∀ (a : Abort) (c : Command), c.Fine (.upholding .wellTraced) s.environment →
      s.runWith (vetted a s.context s.fuel) c = s.run c) ∧
    (∀ (e : Error) (labels : Labels) (stack stack' : StackTrace),
      (e.withStack stack).withStack stack' = e.withStack stack ∧
      (e.withStack stack).root = e.root ∧ (e.withStack stack).tag = e.tag ∧
      (e.withStack stack).message labels = e.message labels ∧
      (e.withStack stack).text labels = e.text labels ∧
      (e.withStack stack).catchable = e.catchable) ∧
    ∀ (e : Error) (traces : List StackTrace) (labels : Labels) (fallback : StackTrace),
      ∃ trace, (e.through traces).toTriple labels fallback =
        .tuple [.symbol e.tag, .ofText (e.text labels), trace] := by
  obtain ⟨hcontext, hm⟩ := h.upholds
  have hclosed := Terms.closed_wellTraced
  have hspares : ∀ a, Spares .wellTraced (.vetting a) := spares_vetting
  obtain ⟨T, -⟩ := (shadow_upholding hclosed (hspares .outOfFuel) hcontext.upholds).tandem s.fuel
  have hfailure : ∀ {x y : EvalM Value}, (Bond.upholding .wellTraced).Together x y →
      ∀ {e m'}, x s.machine = .error (.error e) m' → e.wellTraced = true := by
    intro x y hxy e m' hr
    have hmeets := hxy 0 s.machine s.machine ⟨rfl, hm⟩
    exact (Bond.settling_upholding hclosed).failure_of_meets (hr ▸ hmeets)
  refine ⟨hm.failed, fun expr _ _ => hfailure (T.eval expr trivial),
    fun callee args _ _ => hfailure (T.callFunction callee args), fun a c hc => ?_,
    fun e labels stack stack' => ?_, Error.toTriple_through⟩
  · obtain ⟨⟨-, hsame, hpaired⟩, hresponse⟩ :=
      Session.inStep_upholding hclosed (hspares a) hcontext.upholds rfl hm hc
    have hsession : (s.runWith (vetted a s.context s.fuel) c).1 = (s.run c).1 := by
      rw [vetted, hsame, ← hpaired.1]
    exact Prod.ext hsession hresponse
  · exact ⟨e.withStack_withStack stack stack', e.root_withStack stack, e.tag_withStack stack,
      e.message_withStack stack labels, e.text_withStack stack labels, e.catchable_withStack stack⟩

/-- A task that calls a function that divides by zero. -/
def doomed : Expr :=
  .spawn (.lambda none [] (.call (.lambda (some "divide") []
    (.binary .div (.literal (.int 1)) (.literal (.int 0)))) [] none))

/-- A function that looks into the task's promise. -/
def curious : Expr :=
  .call (.lambda (some "look") [] (.select (.literal (.promise ⟨0⟩)) [.mk (.tuple []) []])) [] none

/-- A session with a task that has failed. -/
def Session.doomed : Session :=
  ({ Session.start .immediate 8 false false with
    context := ⟨8, .immediate, Session.host⟩, fuel := 8 }.run (.eval Deferral.doomed none)).1

/-- The error has left the function and the task, was kept by the promise, and leaves another function:
it still has the trace that it was given first. -/
theorem errors_traced_once_doomed : Session.doomed.WellTraced ∧
    ∃ stack m', stack.length = 2 ∧
      Session.doomed.machine.store.outcome? ⟨0⟩ = some (.error (.traced .divisionByZero stack)) ∧
      Session.doomed.engine.eval curious Session.doomed.machine =
        .error (.error (.traced .divisionByZero stack)) m' ∧
      (Error.traced .divisionByZero stack).wellTraced = true := by
  have hwell : Session.doomed.WellTraced :=
    .run (.settings (.start .immediate 8 false false) (Session.wellTraced_host .immediate 8) 8) trivial
  obtain ⟨-, heval, -⟩ := errors_traced_once hwell
  exact ⟨hwell, _, _, rfl, rfl, rfl, heval curious _ _ rfl⟩

end Deferral
