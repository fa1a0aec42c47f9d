import Deferral.Eval.Step

/-!
# Runs that end well

How a run of a composed computation that ends with a value splits into runs of its parts, and back.
An environment that has only *grown* since a frame was opened is what it was before when the frame is
closed (`Environment.closeFrame_grow`).
-/

set_option autoImplicit false

namespace Deferral

/-! ## Environments that grow -/

namespace Environment

/-- The environment with more bindings in its innermost frame. -/
def grow (env : Environment) (more : List Binding) : Environment :=
  { env with bindings := more ++ env.bindings }

@[simp] theorem grow_grow (env : Environment) (more more' : List Binding) :
    (env.grow more).grow more' = env.grow (more' ++ more) := by
  simp only [grow, List.append_assoc]

@[simp] theorem callDepth_grow (env : Environment) (more : List Binding) :
    (env.grow more).callDepth = env.callDepth := rfl

@[simp] theorem callDepth_closeFrame (env : Environment) : env.closeFrame.callDepth = env.callDepth := by
  unfold closeFrame
  split <;> rfl

theorem closeFrame_grow (env : Environment) (more : List Binding) :
    (env.openFrame.grow more).closeFrame = env := by
  have h : (more ++ env.bindings).length - env.bindings.length = more.length := by
    rw [List.length_append, Nat.add_sub_cancel]
  simp only [openFrame, grow, closeFrame, h, List.drop_left]

/-- Names are defined by growing. -/
theorem defineAll_eq_grow (env : Environment) (bindings : List (String × Value)) :
    env.defineAll bindings = env.grow (bindings.map fun b => ⟨b.1, b.2, false⟩).reverse := by
  induction bindings generalizing env with
  | nil => rfl
  | cons b rest ih =>
    have h : env.defineAll (b :: rest) = (env.define b.1 b.2).defineAll rest := rfl
    rw [h, ih, List.map_cons, List.reverse_cons, ← grow_grow]
    rfl

end Environment

namespace Machine

/-- The machine in another environment. -/
def withEnv (m : Machine) (env : Environment) : Machine := { m with rest := { m.rest with env } }

/-- The machine with another store. -/
def withStore (m : Machine) (s : Store Handler) : Machine := { m with store := s }

/-- The machine with another queue. -/
def withQueue (m : Machine) (queue : List Task) : Machine := { m with rest := { m.rest with queue } }

/-- The machine with another log. -/
def withLog (m : Machine) (log : List LogEntry) : Machine := { m with rest := { m.rest with log } }

/-- The machine with one more function. -/
def withFunction (m : Machine) (f : Function) : Machine :=
  { m with rest := { m.rest with functions := m.rest.functions.push f } }

@[simp] theorem env_withEnv (m : Machine) (env : Environment) : (m.withEnv env).rest.env = env := rfl

@[simp] theorem withEnv_env (m : Machine) : m.withEnv m.rest.env = m := rfl

@[simp] theorem withEnv_withEnv (m : Machine) (env env' : Environment) :
    (m.withEnv env).withEnv env' = m.withEnv env' := rfl

end Machine

/-! ## Computations in parts -/

namespace EvalM

variable {α β : Type} {x : EvalM α} {m m' m'' : Machine} {a : α}

theorem bind_of_ok {f : α → EvalM β} (h : x m = .ok a m') : (x >>= f) m = f a m' := by
  change EStateM.bind x f m = f a m'
  rw [EStateM.bind, h]

theorem bind_of_error {f : α → EvalM β} {e : Abort} (h : x m = .error e m') :
    (x >>= f) m = .error e m' := by
  change EStateM.bind x f m = _
  rw [EStateM.bind, h]

theorem ok_of_bind {f : α → EvalM β} {b : β} (h : (x >>= f) m = .ok b m'') :
    ∃ a m', x m = .ok a m' ∧ f a m' = .ok b m'' := by
  change EStateM.bind x f m = .ok b m'' at h
  unfold EStateM.bind at h
  split at h
  · exact ⟨_, _, by assumption, h⟩
  · cases h

theorem written_of_some {text : Machine → Option α} (h : text m = some a) :
    written text m = .ok a m := by
  rw [written, h]

theorem written_of_none {text : Machine → Option α} (h : text m = none) :
    written text m = .error .outOfFuel m := by
  rw [written, h]

/-- Whatever is put into an error first, there is no value. -/
theorem bind_fail_ne_ok {f : α → Error} {b : β} : (x >>= fun a => fail (f a)) m ≠ .ok b m' := by
  intro h
  obtain ⟨a, m₁, -, h⟩ := ok_of_bind h
  cases h

theorem noMatch_ne_ok {v : Value} : (noMatch v : EvalM α) m ≠ .ok a m' := bind_fail_ne_ok

/-- Nothing fits, unless there is no text of the value. -/
theorem noMatch_cases (v : Value) (m : Machine) :
    (∃ text, m.directory.quoted? v = some text ∧
      (noMatch v : EvalM α) m = .error (.error (.noMatch text)) m) ∨
    m.directory.quoted? v = none ∧ (noMatch v : EvalM α) m = .error .outOfFuel m := by
  cases htext : m.directory.quoted? v with
  | some text => exact .inl ⟨text, rfl, bind_of_ok (written_of_some htext)⟩
  | none => exact .inr ⟨rfl, bind_of_error (written_of_none htext)⟩

theorem inFrame_of_ok {more : List Binding} (h : x (m.withEnv m.rest.env.openFrame) = .ok a m')
    (hm : m'.rest.env = m.rest.env.openFrame.grow more) :
    inFrame x m = .ok a (m'.withEnv m.rest.env) := by
  have hx : inFrame x m = ensuring x (fun m => m.withEnv m.rest.env.closeFrame)
      (m.withEnv m.rest.env.openFrame) := rfl
  rw [hx, ensuring, h]
  simp only [hm, Environment.closeFrame_grow]

theorem ok_of_inFrame (h : inFrame x m = .ok a m'') :
    ∃ m', x (m.withEnv m.rest.env.openFrame) = .ok a m' ∧
      m'' = m'.withEnv m'.rest.env.closeFrame := by
  have hx : inFrame x m = ensuring x (fun m => m.withEnv m.rest.env.closeFrame)
      (m.withEnv m.rest.env.openFrame) := rfl
  rw [hx, ensuring] at h
  split at h
  · cases h
    exact ⟨_, by assumption, rfl⟩
  · cases h

theorem within_of_ok {env : Environment} (h : x (m.withEnv env) = .ok a m') :
    within env x m = .ok a (m'.withEnv m.rest.env) := by
  have hx : within env x m = ensuring x (fun m' => m'.withEnv m.rest.env) (m.withEnv env) := rfl
  rw [hx, ensuring, h]

theorem outcome_of_ok (h : x m = .ok a m') : outcome x m = .ok (.ok a) m' := by
  rw [outcome, h]

theorem contained_of_ok (h : x m = .ok a m') : contained x m = .ok (.ok a) m' := by
  rw [contained, h]

theorem traced_of_ok {stack : StackTrace} (h : x m = .ok a m') : traced stack x m = .ok a m' := by
  rw [traced, h]

end EvalM

/-! ## Engines -/

namespace Engine

variable {E : Engine}

theorem whenReady_of_not_promise {v : Value} (h : ∀ p, v ≠ .promise p) (frame : Frame) :
    E.whenReady v frame = E.resume frame v := by
  cases v with
  | promise p => exact absurd rfl (h p)
  | _ => rfl

theorem evalStep_of_quiet {e : Expr} {m : Machine} (h : m.rest.interrupted = false) :
    E.evalStep e m = E.evalKind e m := by
  have hx : E.evalStep e m =
      (if m.rest.interrupted then EvalM.fail .interrupted else E.evalKind e) m := rfl
  rw [hx, h]
  rfl

theorem evalKind_of_evalStep {e : Expr} {m m' : Machine} {v : Value}
    (h : E.evalStep e m = .ok v m') : E.evalKind e m = .ok v m' := by
  have hx : E.evalStep e m =
      (if m.rest.interrupted then EvalM.fail .interrupted else E.evalKind e) m := rfl
  rw [hx] at h
  split at h
  · cases h
  · exact h

/-! ## Calls -/

section

variable {id : FunctionId} {f : Function} {args : List Value} {location : Option Location}
  {m : Machine}

theorem notCallable_ne_ok {v w : Value} {m m' : Machine} : notCallable v m ≠ .ok w m' :=
  EvalM.bind_fail_ne_ok

theorem callValue_of_function (h : m.current? id = some f) :
    E.callValue (.function id) args location m = E.invoke id f args location m := by
  simp only [callValue, EvalM.gets, Bind.bind, EStateM.bind, h]

theorem invoke_of_native {operation : Native} {arity : Nat} (h : f.body = .native operation arity)
    (hcount : args.length = arity) :
    E.invoke id f args location = Strict.apply E (.native operation) args := by
  have harity : f.arity = arity := by rw [Function.arity, h]
  rw [invoke, if_neg (by rw [harity]; exact fun hne => hne hcount), h]

/-- A call is refused at the limit, and goes one level down otherwise. -/
theorem bodyEnvironment_cases (max : Nat) (id : FunctionId) (f : Function) (args : List Value)
    (location : Option Location) (caller : Environment) :
    (max ≤ caller.callDepth ∧ bodyEnvironment max id f args location caller =
      .error (.stackOverflow caller.callDepth max)) ∨
    (caller.callDepth < max ∧ ∃ env, bodyEnvironment max id f args location caller = .ok env ∧
      env.callDepth = caller.callDepth + 1) := by
  have hself : ∀ env, (bindSelf id f env).callDepth = env.callDepth := by
    intro env
    unfold bindSelf
    split
    · change (Environment.defineAll env _).callDepth = _
      rw [Environment.defineAll_eq_grow, Environment.callDepth_grow]
    · split <;> rfl
  unfold bodyEnvironment Environment.enterCall
  by_cases hroom : max ≤ (Environment.forCall f.captures caller).callDepth
  · rw [if_pos hroom]
    exact .inl ⟨hroom, rfl⟩
  · rw [if_neg hroom]
    refine .inr ⟨Nat.lt_of_not_le hroom, _, rfl, ?_⟩
    rw [Environment.defineAll_eq_grow, Environment.callDepth_grow, hself]
    rfl

/-- The environment that the body of a task runs in. -/
def thunkEnvironment (body : Expr) (captures : List Binding) (caller : Environment) : Environment :=
  ⟨captures, [], callFrame ⟨anonymousName, .code [] body, captures, none⟩ none :: caller.calls, none⟩

/-- A function without parameters and without a name. -/
theorem invoke_of_thunk {body : Expr} {captures : List Binding} {v : Value} {m' : Machine}
    (hdepth : m.rest.env.callDepth < E.context.maxCallDepth)
    (h : E.eval body (m.withEnv (thunkEnvironment body captures m.rest.env)) = .ok v m') :
    E.invoke id ⟨anonymousName, .code [] body, captures, none⟩ [] none m =
      .ok v (m'.withEnv m.rest.env) := by
  have henv : bodyEnvironment E.context.maxCallDepth id
      ⟨anonymousName, .code [] body, captures, none⟩ [] none m.rest.env =
      .ok (thunkEnvironment body captures m.rest.env) := by
    have hroom : ¬E.context.maxCallDepth ≤ (Environment.forCall captures m.rest.env).callDepth :=
      Nat.not_le.2 hdepth
    simp only [bodyEnvironment, Environment.enterCall, if_neg hroom]
    rfl
  have hx : E.invoke id ⟨anonymousName, .code [] body, captures, none⟩ [] none m =
      (EvalM.ofExcept (bodyEnvironment E.context.maxCallDepth id
        ⟨anonymousName, .code [] body, captures, none⟩ [] none m.rest.env) >>= fun env =>
          EvalM.within env (EvalM.traced env.calls (E.eval body))) m := rfl
  rw [hx, henv]
  exact EvalM.within_of_ok (EvalM.traced_of_ok h)

theorem spawn_of_function (h : m.current? id = some f) (harity : f.arity = 0) :
    E.spawn (.function id) m = E.submit id m := by
  simp only [spawn, EvalM.gets, Bind.bind, EStateM.bind, h, harity, if_true]

/-- A task that is not refused is run at once or put into the queue. -/
theorem submit_cases (h : E.context.executor ≠ .refusing) (id : FunctionId) (m : Machine) :
    ∃ x : EvalM Unit, (x = E.runTask ⟨id, m.rest.env, m.store.fresh.1⟩ ∨
      x = enqueue ⟨id, m.rest.env, m.store.fresh.1⟩) ∧
      E.submit id m = (x >>= fun _ => pure (.promise m.store.fresh.1))
        (m.withStore m.store.fresh.2) := by
  cases hex : E.context.executor with
  | immediate => exact ⟨_, .inl rfl, by simp only [submit, hex]; rfl⟩
  | queued => exact ⟨_, .inr rfl, by simp only [submit, hex]; rfl⟩
  | refusing => exact absurd hex h
  | deciding atOnce =>
    have hx : E.submit id m = (if atOnce m.store.fresh.1 then do
          E.runTask ⟨id, m.rest.env, m.store.fresh.1⟩
          pure (.promise m.store.fresh.1)
        else do
          enqueue ⟨id, m.rest.env, m.store.fresh.1⟩
          pure (.promise m.store.fresh.1) : EvalM Value) (m.withStore m.store.fresh.2) := by
      simp only [submit, hex]
      rfl
    rw [hx]
    split
    · exact ⟨_, .inl rfl, rfl⟩
    · exact ⟨_, .inr rfl, rfl⟩

end

/-! ## What follows a match -/

section

variable {x : Value} {p : Pattern} {ks : List Value} {next : Work} {m : Machine} {mt : Match}
  {q : PromiseId} {e : Error}

theorem bindWith_eq (E : Engine) (x : Value) (p : Pattern) (ks : List Value) (next : Work)
    (m : Machine) : E.bindWith x p ks next m = (EvalM.ofExcept (p.matching m.sight x ks) >>= fun
      | .noMatch => EvalM.noMatch x
      | .pending q => E.whenReady (.promise q) (.bindRetry x p ks next)
      | .matched mt => do
        EvalM.modifyEnvironment (·.defineAll mt.bindings)
        E.checkGuards x mt.guards next : EvalM Value) m := rfl

theorem bindWith_of_matched (h : p.matching m.sight x ks = .ok (.matched mt)) :
    E.bindWith x p ks next m =
      E.checkGuards x mt.guards next (m.withEnv (m.rest.env.defineAll mt.bindings)) := by
  rw [bindWith_eq, h]
  rfl

theorem bindWith_of_pending (h : p.matching m.sight x ks = .ok (.pending q)) :
    E.bindWith x p ks next m = E.whenReady (.promise q) (.bindRetry x p ks next) m := by
  rw [bindWith_eq, h]
  rfl

theorem bindWith_of_noMatch (h : p.matching m.sight x ks = .ok .noMatch) :
    E.bindWith x p ks next m = EvalM.noMatch x m := by
  rw [bindWith_eq, h]
  rfl

theorem bindWith_of_error (h : p.matching m.sight x ks = .error e) :
    E.bindWith x p ks next m = .error (.error e) m := by
  rw [bindWith_eq, h]
  rfl

end

section

variable {trial : Trial} {ks : List Value} {m : Machine} {mt : Match} {q : PromiseId} {e : Error}

theorem tryArm_eq (E : Engine) (trial : Trial) (ks : List Value) (m : Machine) :
    E.tryArm trial ks m =
      (EvalM.ofExcept (trial.arm.pattern.matching m.sight trial.value ks) >>= fun
        | .noMatch => E.proceed trial.next
        | .pending q => E.whenReady (.promise q) (.armRetry trial ks)
        | .matched mt => E.checkArmGuards trial mt.bindings mt.guards : EvalM Value) m := rfl

theorem tryArm_of_matched
    (h : trial.arm.pattern.matching m.sight trial.value ks = .ok (.matched mt)) :
    E.tryArm trial ks m = E.checkArmGuards trial mt.bindings mt.guards m := by
  rw [tryArm_eq, h]
  rfl

theorem tryArm_of_pending
    (h : trial.arm.pattern.matching m.sight trial.value ks = .ok (.pending q)) :
    E.tryArm trial ks m = E.whenReady (.promise q) (.armRetry trial ks) m := by
  rw [tryArm_eq, h]
  rfl

theorem tryArm_of_noMatch (h : trial.arm.pattern.matching m.sight trial.value ks = .ok .noMatch) :
    E.tryArm trial ks m = E.proceed trial.next m := by
  rw [tryArm_eq, h]
  rfl

theorem tryArm_of_error (h : trial.arm.pattern.matching m.sight trial.value ks = .error e) :
    E.tryArm trial ks m = .error (.error e) m := by
  rw [tryArm_eq, h]
  rfl

end

end Engine

end Deferral
