import Deferral.Proofs.Eval.Completion
import Deferral.Proofs.Renaming.Extensions

/-!
# Turns in a larger machine

What a host lets happen goes on alike in a machine and in one that it is embedded in
(`Turn.runAll_echoes`). Unless the host evaluates something, it does not matter which environment it is
in: what runs on behalf of a promise or a task has its own (`Scopeless`).
-/

set_option autoImplicit false

namespace Deferral

/-! ## Environments that do not matter -/

/-- The result with another environment at the end. -/
def endWith (env : Environment) {α : Type} :
    EStateM.Result Abort Machine α → EStateM.Result Abort Machine α
  | .ok a m => .ok a (m.withEnv env)
  | .error e m => .error e (m.withEnv env)

/-- The computation neither sees nor changes the environment. -/
def Scopeless {α : Type} (x : EvalM α) : Prop := ∀ m env, x (m.withEnv env) = endWith env (x m)

namespace Scopeless

variable {α β : Type} {x : EvalM α}

theorem pure (a : α) : Scopeless (Pure.pure a : EvalM α) := fun _ _ => rfl

theorem throw (e : Abort) : Scopeless (throw e : EvalM α) := fun _ _ => rfl

theorem fail (e : Error) : Scopeless (EvalM.fail e : EvalM α) := fun _ _ => rfl

theorem ofExcept (r : Except Error α) : Scopeless (EvalM.ofExcept r) := by
  cases r with
  | ok a => exact pure a
  | error e => exact fail e

theorem gets {look : Machine → α} (h : ∀ m env, look (m.withEnv env) = look m) :
    Scopeless (EvalM.gets look) := fun m env => congrArg (EStateM.Result.ok · _) (h m env)

theorem written {text : Machine → Option α} (h : ∀ m env, text (m.withEnv env) = text m) :
    Scopeless (EvalM.written text) := by
  intro m env
  unfold EvalM.written
  rw [h]
  cases text m <;> rfl

theorem onStore (step : Store Handler → α × Store Handler) :
    Scopeless (Promise.onStore step : EvalM α) := fun _ _ => rfl

theorem bind {f : α → EvalM β} (hx : Scopeless x) (hf : ∀ a, Scopeless (f a)) :
    Scopeless (x >>= f) := by
  intro m env
  change EStateM.bind x f (m.withEnv env) = endWith env (EStateM.bind x f m)
  unfold EStateM.bind
  rw [hx m env]
  cases x m with
  | ok a m₁ => exact hf a m₁ env
  | error e m₁ => rfl

theorem outcome (hx : Scopeless x) : Scopeless (EvalM.outcome x) := by
  intro m env
  unfold EvalM.outcome
  rw [hx m env]
  cases x m with
  | ok a m₁ => rfl
  | error e m₁ => cases e <;> rfl

theorem contained (hx : Scopeless x) : Scopeless (EvalM.contained x) := by
  intro m env
  unfold EvalM.contained
  rw [hx m env]
  cases x m with
  | ok a m₁ => rfl
  | error e m₁ => cases e <;> rfl

/-- What has an environment of its own sees no other. -/
theorem within (env : Environment) (x : EvalM α) : Scopeless (EvalM.within env x) := by
  intro m env'
  have hm : ∀ m : Machine, EvalM.within env x m =
      EvalM.ensuring x (fun m₁ => m₁.withEnv m.rest.env) (m.withEnv env) := fun _ => rfl
  rw [hm, hm, Machine.withEnv_withEnv]
  unfold EvalM.ensuring
  cases x (m.withEnv env) <;> rfl

theorem native (host : String → List Value → Reply) (operation : Native) (args : List Value) :
    Scopeless (operation.run host args) := by
  unfold Native.run
  split
  · exact pure _
  · unfold Native.sizeOf
    split
    · exact ofExcept _
    · exact fail _
  · exact pure _
  · exact bind (gets fun _ _ => rfl) fun _ => pure _
  · rename_i name
    have hanswer : Scopeless (Native.answer (host name args).answer) := by
      unfold Native.answer
      split
      · exact pure _
      · exact fail _
      · exact throw _
    refine bind (fun _ _ => rfl) fun _ => ?_
    split
    · exact bind (fun _ _ => rfl) fun _ => hanswer
    · exact hanswer
  · exact fail _

theorem strict (context : Context) (operation : Strict) (operands : List Value) :
    Scopeless (operation.run context operands) := by
  unfold Strict.run
  split
  · exact ofExcept _
  · exact fail _
  · exact ofExcept _
  · exact fail _
  · exact pure _
  · exact pure _
  · exact native _ _ _

theorem handle (E : Engine) (handler : Handler) (o : Outcome) : Scopeless (E.handle handler o) := by
  cases handler with
  | applyEither function env => exact bind (written fun _ _ => rfl) fun _ => outcome (within _ _)
  | report label =>
    exact bind (gets fun _ _ => rfl) fun _ => bind (fun _ _ => rfl) fun _ => pure _
  | compute operation =>
    cases o with
    | ok v => exact outcome (strict _ _ _)
    | error e => exact pure _
  | recover arms env =>
    cases o with
    | ok v => exact pure _
    | error e =>
      rw [Engine.handle]
      split
      · exact outcome (within _ _)
      · exact pure _
  | _ =>
    cases o with
    | ok v => exact outcome (within _ _)
    | error e => exact pure _

theorem composed : Composed @Scopeless where
  pure := pure
  bind := bind
  new := onStore _
  settles _ _ _ := onStore _
  registers _ _ := onStore _
  gathers _ := onStore _
  records _ _ _ := onStore _

theorem deliver (context : Context) (n : Nat) (k : Continuation Handler) (o : Outcome) :
    Scopeless ((engine context n).deliver k o) := by
  induction n generalizing k o with
  | zero => exact throw .outOfFuel
  | succ n ih => exact composed.deliverStep ih (handle _) k o

theorem drain (context : Context) (n : Nat) (fromBack : Bool) (limit count : Nat) :
    Scopeless (Session.drain (engine context n) fromBack limit count) := by
  induction limit generalizing count with
  | zero => exact pure count
  | succ limit ih =>
    refine bind (gets fun _ _ => rfl) fun taken => ?_
    cases taken with
    | none => exact pure count
    | some taken =>
      refine bind (fun _ _ => rfl) fun _ => bind ?_ fun _ => ih (count + 1)
      exact bind (contained (within _ _)) fun o => composed.fulfil (deliver context n) _ o

/-- What comes to its end in one environment does so in another. -/
theorem converges {x : Nat → EvalM α} (hx : ∀ n, Scopeless (x n)) {m m₁ : Machine} {env : Environment}
    {a : α} (h : Converges (fun n => x n (m.withEnv env)) (.ok a m₁)) :
    Converges (fun n => x n m) (.ok a (m₁.withEnv m.rest.env)) := by
  obtain ⟨N, hN⟩ := h
  exact ⟨N, fun n hn => (hx n (m.withEnv env) m.rest.env).trans (congrArg (endWith _) (hN n hn))⟩

end Scopeless

/-! ## The turns of a host -/

namespace Turn

/-- The turn with the identities in it renamed. -/
def rename (r : Renaming) : Turn → Turn
  | .fulfil p o => .fulfil (r.promise p) (o.rename r)
  | .eval e => .eval (e.rename r)
  | .runTasks count fromBack => .runTasks count fromBack

/-- The host evaluates nothing itself. -/
def Idle (turns : List Turn) : Prop := ∀ e, .eval e ∉ turns

theorem scopeless_runAll (context : Context) (n : Nat) {turns : List Turn} (h : Idle turns) :
    Scopeless (runAll (engine context n) turns) := by
  induction turns with
  | nil => exact .pure ()
  | cons turn rest ih =>
    refine .bind ?_ fun _ => ih fun e he => h e (.tail _ he)
    cases turn with
    | fulfil p o => exact Scopeless.composed.fulfil (.deliver context n) p o
    | eval e => exact absurd (.head _) (h e)
    | runTasks count fromBack => exact .bind (.drain context n fromBack count 0) fun _ => .pure ()

end Turn

section

variable {r : Renaming} {X : Shadows} {context : Context}

theorem Session.takeTask_rename (fromBack : Bool) (queue : List Task) :
    Session.takeTask fromBack (queue.map (Task.rename r)) =
      (Session.takeTask fromBack queue).map fun taken =>
        (taken.1.rename r, taken.2.map (Task.rename r)) := by
  unfold Session.takeTask
  cases fromBack with
  | true =>
    simp only [if_true, ← List.map_reverse]
    cases queue.reverse with
    | nil => rfl
    | cons task rest => simp only [List.map_cons, Option.map_some, List.map_reverse]
  | false => cases queue <;> rfl

theorem Session.drain_echoes (h : context.Natural r) (n : Nat) (fromBack : Bool)
    (limit count : Nat) :
    Echoes r X id (Session.drain (Deferral.engine context n) fromBack limit count)
      (Session.drain (Deferral.engine context (n + X.lead)) fromBack limit count) := by
  induction limit generalizing count with
  | zero => exact .pure count
  | succ limit ih =>
    refine .bind
      (f := Option.map fun taken => (taken.1.rename r, taken.2.map (Task.rename r)))
      (.gets fun _ _ hm => ?_) fun taken => ?_
    · rw [hm.queue, Session.takeTask_rename]
    · cases taken with
      | none => exact .pure count
      | some taken =>
        refine .bind (f := id) (fun _ _ hm => .ok () (hm.withQueue taken.2)) fun _ => ?_
        exact .bind ((natural_engine h n).runTask taken.1) fun _ => ih (count + 1)

theorem Turn.run_echoes (h : context.Natural r) (n : Nat) (turn : Turn) :
    Echoes r X id (turn.run (engine context n))
      ((turn.rename r).run (engine context (n + X.lead))) := by
  cases turn with
  | fulfil p o => exact (natural_engine h n).deliver.fulfil p o
  | eval e => exact .bind (.outcome ((natural_engine h n).eval e)) fun _ => .pure ()
  | runTasks count fromBack => exact .bind (Session.drain_echoes h n fromBack count 0) fun _ => .pure ()

/-- A host's turns do in a larger machine what they do in a smaller one. -/
theorem Turn.runAll_echoes (h : context.Natural r) (n : Nat) (turns : List Turn) :
    Echoes r X id (Turn.runAll (engine context n) turns)
      (Turn.runAll (engine context (n + X.lead)) (turns.map (Turn.rename r))) := by
  induction turns with
  | nil => exact .pure ()
  | cons turn rest ih => exact .bind (turn.run_echoes h n) fun _ => ih

end

end Deferral
