import Mathlib.Order.Defs.Unbundled
import Deferral.Proofs.Promise.Composed
import Deferral.Proofs.Eval.Evolution

/-!
# The conduct of evaluation

What every run of the evaluator does, with whatever fuel and however it ends: the machine evolves by
the changes of `Change`, a panic is one of the host's, and the environment is treated with care.
Evaluating an expression and delivering a continuation leave the environment as it was. What goes on
in the middle of a `let`, a block or a selection may add names to the innermost frame and do nothing
else to it (`Environment.Grows`); the frame that such work runs in is closed at its end, also by an
error, and that takes the added names away again.

`Conduct` says so of one computation, and `Conducted` of an engine. From an engine that behaves, each
construct behaves, and so does the engine with more fuel.
-/

set_option autoImplicit false

namespace Deferral

/-- Names have been added to the innermost frame. -/
def Environment.Grows (env env' : Environment) : Prop := ∃ more, env' = env.grow more

instance : IsPreorder Environment Environment.Grows where
  refl env := ⟨[], rfl⟩
  trans := by
    rintro env _ _ ⟨more, rfl⟩ ⟨more', rfl⟩
    exact ⟨more' ++ more, Environment.grow_grow env more more'⟩

theorem Environment.grows_defineAll (env : Environment) (bindings : List (String × Value)) :
    env.Grows (env.defineAll bindings) :=
  ⟨_, env.defineAll_eq_grow bindings⟩

/-- A host operation gives up with this payload. -/
def Context.Panics (context : Context) (payload : Option String) : Prop :=
  ∃ name args, (context.host name args).answer = .panic payload

/-- How a run that starts from a machine ends, if `ρ` says what may become of the environment. -/
structure Ends (context : Context) (ρ : Environment → Environment → Prop) {α : Type} (m : Machine)
    (r : EStateM.Result Abort Machine α) : Prop where
  evolves : Evolves m (finalWorld r)
  env : ρ m.rest.env (finalWorld r).rest.env
  panics : ∀ payload m', r = .error (.panic payload) m' → context.Panics payload

/-- Every run of the computation ends well. -/
def Conduct (context : Context) (ρ : Environment → Environment → Prop) {α : Type} (x : EvalM α) :
    Prop :=
  ∀ m, Ends context ρ m (x m)

/-- What work may do to the environment: only bindings add names. -/
def Work.reach : Work → Environment → Environment → Prop
  | .select .. => (· = ·)
  | _ => Environment.Grows

/-- What a frame may do to the environment. -/
def Frame.reach : Frame → Environment → Environment → Prop
  | .bindKeys .. | .bindRetry .. | .bindGuard .. => Environment.Grows
  | .andThen next => next.reach
  | _ => (· = ·)

instance (w : Work) : IsPreorder Environment w.reach := by
  cases w <;> unfold Work.reach <;> infer_instance

instance (frame : Frame) : IsPreorder Environment frame.reach := by
  cases frame <;> unfold Frame.reach <;> infer_instance

/-- What runs the parts of a program behaves. -/
structure Conducted (E : Engine) : Prop where
  eval : ∀ e, Conduct E.context (· = ·) (E.eval e)
  proceed : ∀ w, Conduct E.context w.reach (E.proceed w)
  resume : ∀ frame v, Conduct E.context frame.reach (E.resume frame v)
  deliver : ∀ k o, Conduct E.context (· = ·) (E.deliver k o)

namespace Ends

variable {context : Context} {ρ : Environment → Environment → Prop} {α β : Type}
  {m m' m'' : Machine} {a : α} {e : Abort}

/-- A run with a result. -/
theorem ok (he : Evolves m m') (hρ : ρ m.rest.env m'.rest.env) : Ends context ρ m (.ok a m') :=
  ⟨he, hρ, fun _ _ h => by cases h⟩

/-- A run that is cut short, but by no panic. -/
theorem error (he : Evolves m m') (hρ : ρ m.rest.env m'.rest.env)
    (hpanic : ∀ payload, e ≠ .panic payload) : Ends context ρ m (.error e m' : EStateM.Result _ _ α) :=
  ⟨he, hρ, fun payload _ h => by cases h; exact absurd rfl (hpanic payload)⟩

/-- A run that goes on from where another one has ended. -/
theorem trans [IsPreorder Environment ρ] {r : EStateM.Result Abort Machine β}
    (he : Evolves m m') (hρ : ρ m.rest.env m'.rest.env) (h : Ends context ρ m' r) :
    Ends context ρ m r :=
  ⟨he.trans h.evolves, IsTrans.trans _ _ _ hρ h.env, h.panics⟩

/-- The end of a run, put into another environment. -/
theorem withEnv {r : EStateM.Result Abort Machine α} (h : Ends context ρ m r) (env : Environment) :
    Evolves m (Machine.withEnv (finalWorld r) env) :=
  h.evolves.tail (.environment _ env)

end Ends

namespace Conduct

variable {context : Context} {ρ : Environment → Environment → Prop} {α β : Type} {x : EvalM α}

/-- What leaves the environment alone does not harm it. -/
theorem loosen [IsPreorder Environment ρ] (h : Conduct context (· = ·) x) : Conduct context ρ x := by
  intro m
  obtain ⟨hevolves, henv, hpanics⟩ := h m
  exact ⟨hevolves, henv ▸ refl _, hpanics⟩

/-- Whatever work does, it at most adds names. -/
theorem grows {w : Work} (h : Conduct context w.reach x) : Conduct context Environment.Grows x := by
  cases w with
  | select => exact loosen h
  | _ => exact h

theorem outcome (h : Conduct context ρ x) : Conduct context ρ (EvalM.outcome x) := by
  intro m
  have hm := h m
  unfold EvalM.outcome
  split <;> rename_i hr <;> rw [hr] at hm
  · exact .ok hm.evolves hm.env
  · exact .ok hm.evolves hm.env
  · exact ⟨hm.evolves, hm.env, fun payload _ he => by cases he; exact hm.panics payload _ rfl⟩

theorem contained (h : Conduct context ρ x) : Conduct context ρ (EvalM.contained x) := by
  intro m
  have hm := h m
  unfold EvalM.contained
  split <;> rename_i hr <;> rw [hr] at hm
  · exact .ok hm.evolves hm.env
  · exact .ok hm.evolves hm.env
  · exact .ok hm.evolves hm.env
  · exact .error hm.evolves hm.env fun _ he => by cases he

theorem traced (h : Conduct context ρ x) (stack : StackTrace) :
    Conduct context ρ (EvalM.traced stack x) := by
  intro m
  have hm := h m
  unfold EvalM.traced
  split
  · rename_i hr
    rw [hr] at hm
    exact .error hm.evolves hm.env fun _ he => by cases he
  · exact hm

section

variable [IsPreorder Environment ρ]

theorem pure (a : α) : Conduct context ρ (Pure.pure a : EvalM α) :=
  fun _ => .ok .refl (refl _)

theorem bind {f : α → EvalM β} (hx : Conduct context ρ x) (hf : ∀ a, Conduct context ρ (f a)) :
    Conduct context ρ (x >>= f) := by
  intro m
  have h := hx m
  change Ends context ρ m (EStateM.bind x f m)
  unfold EStateM.bind
  cases hr : x m with
  | ok a m' =>
    rw [hr] at h
    exact .trans h.evolves h.env (hf a m')
  | error e m' =>
    rw [hr] at h
    exact ⟨h.evolves, h.env, fun payload _ he => by cases he; exact h.panics payload m' rfl⟩

theorem fail (e : Error) : Conduct context ρ (EvalM.fail e : EvalM α) :=
  fun _ => .error .refl (refl _) fun _ h => by cases h

theorem outOfFuel : Conduct context ρ (throw .outOfFuel : EvalM α) :=
  fun _ => .error .refl (refl _) fun _ h => by cases h

theorem ofExcept (r : Except Error α) : Conduct context ρ (EvalM.ofExcept r) := by
  cases r with
  | ok a => exact pure a
  | error e => exact fail e

theorem gets (f : Machine → α) : Conduct context ρ (EvalM.gets f) := fun _ => .ok .refl (refl _)

theorem environment : Conduct context ρ EvalM.environment := gets _

theorem written (text : Machine → Option α) : Conduct context ρ (EvalM.written text) := by
  intro m
  unfold EvalM.written
  split
  · exact .ok .refl (refl _)
  · exact .error .refl (refl _) fun _ h => by cases h

theorem noMatch (v : Value) : Conduct context ρ (EvalM.noMatch v : EvalM α) :=
  bind (written _) fun _ => fail _

theorem addFunction (f : Function) : Conduct context ρ (EvalM.addFunction f) :=
  fun m => .ok (.single (.function m f)) (refl _)

theorem log (entry : LogEntry) : Conduct context ρ (EvalM.log entry) :=
  fun m => .ok (.single (.log m _)) (refl _)

theorem logValues (values : List Value) : Conduct context ρ (EvalM.logValues values) :=
  fun m => .ok (.single (.log m _)) (refl _)

/-- Whatever is done in another environment, the present one is there again afterwards. -/
theorem within {ρ' : Environment → Environment → Prop} (h : Conduct context ρ' x)
    (env : Environment) : Conduct context ρ (EvalM.within env x) := by
  intro m
  have hm := h (m.withEnv env)
  have hstart : Evolves m (m.withEnv env) := .single (.environment m env)
  have hx : EvalM.within env x m =
      EvalM.ensuring x (fun m' => m'.withEnv m.rest.env) (m.withEnv env) := rfl
  rw [hx, EvalM.ensuring]
  split <;> rename_i hr <;> rw [hr] at hm
  · exact .ok (hstart.trans (hm.withEnv _)) (refl _)
  · refine ⟨hstart.trans (hm.withEnv _), refl _, fun payload _ he => ?_⟩
    cases he
    exact hm.panics payload _ rfl

/-- Names that are added in a frame are gone when it is closed, and no others. -/
theorem inFrame (h : Conduct context Environment.Grows x) : Conduct context ρ (EvalM.inFrame x) := by
  intro m
  have hm := h (m.withEnv m.rest.env.openFrame)
  have hstart : Evolves m (m.withEnv m.rest.env.openFrame) := .single (.environment m _)
  have hx : EvalM.inFrame x m = EvalM.ensuring x (fun m' => m'.withEnv m'.rest.env.closeFrame)
      (m.withEnv m.rest.env.openFrame) := rfl
  obtain ⟨more, hmore⟩ := hm.env
  have hclosed : (finalWorld (x (m.withEnv m.rest.env.openFrame))).rest.env.closeFrame =
      m.rest.env := by
    rw [hmore]
    exact Environment.closeFrame_grow m.rest.env more
  rw [hx, EvalM.ensuring]
  split <;> rename_i hr <;> rw [hr] at hm hclosed
  · exact .ok (hstart.trans (hm.withEnv _)) (hclosed ▸ refl _)
  · refine ⟨hstart.trans (hm.withEnv _), hclosed ▸ refl _, fun payload _ he => ?_⟩
    cases he
    exact hm.panics payload _ rfl

end

theorem define (bindings : List (String × Value)) :
    Conduct context Environment.Grows
      (EvalM.modifyEnvironment (·.defineAll bindings)) :=
  fun m => .ok (.single (.environment m _)) (Environment.grows_defineAll _ bindings)

end Conduct

/-! ## Promises -/

theorem Conduct.composed {context : Context} {ρ : Environment → Environment → Prop}
    [IsPreorder Environment ρ] : Composed (@Conduct context ρ) where
  pure := pure
  bind := bind
  new m := .ok (.single (.made m)) (refl _)
  settles p _ ho m := .ok (.single (.settled m p ho)) (refl _)
  registers p k m := .ok (.single (.registered m p k)) (refl _)
  gathers _ m := .ok (.single (.gathering m _)) (refl _)
  records id place o m := .ok (.single (.recorded m id place o)) (refl _)

/-! ## Constructs -/

/-- A host operation panics only as its reply says. -/
theorem Native.conduct_reply {context : Context} {ρ : Environment → Environment → Prop}
    [IsPreorder Environment ρ] (name : String) (args : List Value) :
    Conduct context ρ (Native.reply (context.host name args)) := by
  have hanswer : Conduct context ρ (Native.answer (context.host name args).answer) := by
    cases hr : (context.host name args).answer with
    | value v => exact .pure v
    | error e => exact .fail e
    | panic payload =>
      exact fun m => ⟨.refl, refl _, fun payload' _ h => by cases h; exact ⟨name, args, hr⟩⟩
  refine .bind (.logValues _) fun _ => ?_
  dsimp only
  split
  · exact .bind (fun m => .ok (.single (.interrupted m)) (refl _)) fun _ => hanswer
  · exact hanswer

theorem Native.conduct {context : Context} {ρ : Environment → Environment → Prop}
    [IsPreorder Environment ρ] (operation : Native) (args : List Value) :
    Conduct context ρ (operation.run context.host args) := by
  unfold Native.run
  split
  · exact .pure _
  · unfold Native.sizeOf
    split
    · exact .ofExcept _
    · exact .fail _
  · exact .pure _
  · exact .bind (.gets _) fun _ => .pure _
  · exact conduct_reply _ _
  · exact .fail _

theorem Strict.conduct {context : Context} {ρ : Environment → Environment → Prop}
    [IsPreorder Environment ρ] (operation : Strict) (operands : List Value) :
    Conduct context ρ (operation.run context operands) := by
  unfold Strict.run
  split
  · exact .ofExcept _
  · exact .fail _
  · exact .ofExcept _
  · exact .fail _
  · exact .pure _
  · exact .pure _
  · exact Native.conduct _ _

namespace Conduct

variable {context : Context} {ρ : Environment → Environment → Prop} [IsPreorder Environment ρ]

theorem notCallable (v : Value) : Conduct context ρ (Engine.notCallable v) :=
  .bind (.written _) fun _ => .fail _

theorem enqueue (task : Task) : Conduct context ρ (Engine.enqueue task) :=
  fun m => .ok (.single (.queue m _)) (refl _)

theorem closure (name : String) (params : List String) (body : Expr) :
    Conduct context ρ (Deferral.closure name params body) :=
  .bind .environment fun _ => .bind (.addFunction _) fun _ => .pure _

theorem addFunctions (captures : List Binding) (module : Option Module) :
    ∀ ds, Conduct context ρ (Deferral.addFunctions captures module ds)
  | [] => .pure _
  | _ :: ds => .bind (.addFunction _) fun _ => addFunctions captures module ds

theorem registerModule (m : Module) : Conduct context ρ (Deferral.registerModule m) :=
  fun m => .ok (.single (.modules m _)) (refl _)

theorem evalModuleDecl (name : ModuleName) (exports : List String) (ds : List FunctionDecl) :
    Conduct context ρ (Deferral.evalModuleDecl name exports ds) :=
  .bind (.gets _) fun _ => .bind (.ofExcept _) fun _ => .bind .environment fun _ =>
    .bind (addFunctions _ _ ds) fun _ => .bind (registerModule _) fun _ => .pure _

theorem evalModuleRef (name : ModuleName) : Conduct context ρ (Deferral.evalModuleRef name) := by
  refine .bind (.gets _) fun m => ?_
  cases m with
  | none => exact .fail _
  | some m => exact .pure _

theorem resolveIn (module : Value) (name : String) :
    Conduct context ρ (Deferral.resolveIn module name) := by
  unfold Deferral.resolveIn
  split
  · exact .bind .environment fun _ => .bind (.ofExcept _) fun _ => .pure _
  · exact .fail _

theorem raise (tag : String) (message : Value) : Conduct context ρ (Engine.raise tag message) := by
  unfold Engine.raise
  split
  · exact .bind .environment fun _ => .fail _
  · exact .fail _

end Conduct

namespace Conducted

variable {E : Engine} (h : Conducted E)
include h

section

variable {ρ : Environment → Environment → Prop} [IsPreorder Environment ρ]

theorem delivers (k : Continuation Handler) (o : Outcome) : Conduct E.context ρ (E.deliver k o) :=
  (h.deliver k o).loosen

theorem apply (operation : Strict) (operands : List Value) :
    Conduct E.context ρ (Strict.apply E operation operands) := by
  unfold Strict.apply
  split
  · exact .bind (Conduct.composed.all h.delivers _) fun _ =>
      .bind (Conduct.composed.derive h.delivers _ _) fun _ => .pure _
  · exact Strict.conduct _ _

theorem evalItems : ∀ es, Conduct E.context ρ (E.evalItems es)
  | [] => .pure _
  | e :: es => .bind (h.eval e).loosen fun _ => .bind (evalItems es) fun _ => .pure _

theorem evalInArm (bindings : List (String × Value)) (e : Expr) :
    Conduct E.context ρ (E.evalInArm bindings e) :=
  .inFrame (.bind (.define bindings) fun _ => (h.eval e).loosen)

theorem invoke (id : FunctionId) (f : Function) (args : List Value) (location : Option Location) :
    Conduct E.context ρ (E.invoke id f args location) := by
  unfold Engine.invoke
  split
  · exact .fail _
  · split
    · exact apply h _ _
    · exact .bind .environment fun _ => .bind (.ofExcept _) fun _ =>
        .within (.traced (h.eval _) _) _

theorem callValue (callee : Value) (args : List Value) (location : Option Location) :
    Conduct E.context ρ (E.callValue callee args location) := by
  unfold Engine.callValue
  split
  · refine .bind (.gets _) fun f => ?_
    cases f with
    | none => exact .notCallable _
    | some f => exact invoke h _ f args location
  · exact .notCallable _

theorem runTask (task : Task) : Conduct E.context ρ (E.runTask task) :=
  .bind (.contained (.within (callValue (ρ := (· = ·)) h _ _ _) _)) fun _ =>
    Conduct.composed.fulfil h.delivers _ _

theorem submit (id : FunctionId) : Conduct E.context ρ (E.submit id) := by
  refine .bind .environment fun caller => .bind Conduct.composed.new fun target => ?_
  cases E.context.executor with
  | immediate => exact .bind (runTask h _) fun _ => .pure _
  | queued => exact .bind (.enqueue _) fun _ => .pure _
  | refusing => exact .bind (Conduct.composed.fulfil h.delivers _ _) fun _ => .pure _
  | deciding atOnce =>
    dsimp only
    split
    · exact .bind (runTask h _) fun _ => .pure _
    · exact .bind (.enqueue _) fun _ => .pure _

theorem spawn (v : Value) : Conduct E.context ρ (E.spawn v) := by
  unfold Engine.spawn
  split
  · refine .bind (.gets _) fun f => ?_
    cases f with
    | none => exact .fail _
    | some f =>
      dsimp only
      split
      · exact submit h _
      · exact .fail _
  · exact .fail _

theorem bindingValue (pattern : Pattern) (e : Expr) :
    Conduct E.context ρ (E.bindingValue pattern e) := by
  unfold Engine.bindingValue
  split
  · exact .closure _ _ _
  · exact (h.eval e).loosen

end

/-! ### Work that waits -/

theorem whenReady (v : Value) (frame : Frame) :
    Conduct E.context frame.reach (E.whenReady v frame) := by
  unfold Engine.whenReady
  split
  · exact .bind .environment fun _ =>
      .bind (Conduct.composed.derive h.delivers _ _) fun _ => .pure _
  · exact h.resume frame _

theorem whenAllReady (vs : List Value) (frame : Frame) {now : List Value → EvalM Value}
    (hnow : ∀ vs, Conduct E.context frame.reach (now vs)) :
    Conduct E.context frame.reach (E.whenAllReady vs frame now) := by
  unfold Engine.whenAllReady
  split
  · exact .bind (Conduct.composed.all h.delivers _) fun _ => whenReady h _ frame
  · exact hnow vs

/-! ### Bindings -/

theorem checkGuards (value : Value) (guards : List Expr) (next : Work) :
    Conduct E.context Environment.Grows (E.checkGuards value guards next) := by
  unfold Engine.checkGuards
  split
  · exact (h.proceed next).grows
  · exact .bind (h.eval _).loosen fun v => whenReady h v (.bindGuard ..)

theorem bindWith (value : Value) (pattern : Pattern) (keys : List Value) (next : Work) :
    Conduct E.context Environment.Grows (E.bindWith value pattern keys next) := by
  refine .bind (.gets _) fun verdict => .bind (.ofExcept verdict) fun found => ?_
  cases found with
  | noMatch => exact .noMatch value
  | pending p => exact whenReady h _ (.bindRetry ..)
  | matched m => exact .bind (.define m.bindings) fun _ => checkGuards h value m.guards next

theorem bind (value : Value) (pattern : Pattern) (next : Work) :
    Conduct E.context Environment.Grows (E.bind value pattern next) :=
  .bind (evalItems h _) fun keys => whenAllReady h keys (.bindKeys ..) fun keys =>
    bindWith h value pattern keys next

theorem evalLet (bindings : List (Pattern × Expr)) (body : Expr) :
    Conduct E.context Environment.Grows (E.evalLet bindings body) := by
  unfold Engine.evalLet
  split
  · exact (h.eval body).loosen
  · exact .bind (bindingValue h _ _) fun v => bind h v _ _

theorem evalBlock (steps : List Step) :
    Conduct E.context Environment.Grows (E.evalBlock steps) := by
  unfold Engine.evalBlock
  split
  · exact .pure _
  · exact (h.eval _).loosen
  · exact .bind (h.eval _).loosen fun v => whenReady h v (.andThen (.block _))
  · exact .bind (h.eval _).loosen fun v => bind h v _ _
  · exact .bind (h.eval _).loosen fun v => bind h v _ _

/-! ### Selections -/

theorem choose (trial : Trial) (bindings : List (String × Value))
    (alternatives : List (Option Expr × Expr)) :
    Conduct E.context (· = ·) (E.choose trial bindings alternatives) := by
  unfold Engine.choose
  split
  · exact h.proceed trial.next
  · exact evalInArm h _ _
  · exact .bind (evalInArm h _ _) fun v => whenReady h v (.alternative ..)

theorem checkArmGuards (trial : Trial) (bindings : List (String × Value)) (guards : List Expr) :
    Conduct E.context (· = ·) (E.checkArmGuards trial bindings guards) := by
  unfold Engine.checkArmGuards
  split
  · exact choose h _ _ _
  · exact .bind (evalInArm h _ _) fun v => whenReady h v (.armGuard ..)

theorem tryArm (trial : Trial) (keys : List Value) :
    Conduct E.context (· = ·) (E.tryArm trial keys) := by
  refine .bind (.gets _) fun verdict => .bind (.ofExcept verdict) fun found => ?_
  cases found with
  | noMatch => exact h.proceed trial.next
  | pending p => exact whenReady h _ (.armRetry ..)
  | matched m => exact checkArmGuards h trial m.bindings m.guards

theorem select (value : Value) (arms : List Arm) (unmatched : Unmatched) :
    Conduct E.context (· = ·) (E.select value arms unmatched) := by
  unfold Engine.select
  split
  · split
    · exact .noMatch value
    · exact .fail _
  · exact .bind (evalItems h _) fun keys => whenAllReady h keys (.armKeys _) fun keys =>
      tryArm h _ keys

theorem recover (e : Error) (arms : List Arm) : Conduct E.context (· = ·) (E.recover e arms) :=
  .bind (.written _) fun _ => select h _ _ _

theorem evalAttempt (body : Expr) (arms : List Arm) :
    Conduct E.context (· = ·) (E.evalAttempt body arms) := by
  refine .bind (.outcome (.inFrame (h.eval body).loosen)) fun outcome => ?_
  split
  · exact .bind .environment fun _ =>
      .bind (Conduct.composed.derive h.delivers _ _) fun _ => .pure _
  · exact .pure _
  · split
    · exact recover h _ arms
    · exact .fail _

/-! ### One more level -/

theorem evalKind (e : Expr) : Conduct E.context (· = ·) (E.evalKind e) := by
  cases e with
  | literal v => exact .pure v
  | identifier name =>
    refine .bind .environment fun env => ?_
    split
    · exact .pure _
    · exact .fail _
  | tuple items => exact .bind (evalItems h items) fun _ => .pure _
  | sequence items => exact .bind (evalItems h items) fun _ => .pure _
  | set items => exact .bind (evalItems h items) fun _ => apply h _ _
  | dict entries => exact .bind (evalItems h _) fun _ => apply h _ _
  | binary op left right =>
    simp only [Engine.evalKind]
    split
    · exact .bind (h.eval left) fun l => whenReady h l (.connectiveLeft ..)
    · exact .bind (h.eval left) fun l => whenReady h l (.connectiveLeft ..)
    · exact .bind (h.eval left) fun _ => .bind (h.eval right) fun _ => apply h _ _
  | unary op operand => exact .bind (h.eval operand) fun _ => apply h _ _
  | branch condition onTrue onFalse =>
    exact .bind (h.eval condition) fun c => whenReady h c (.branch ..)
  | letIn bindings body => exact .inFrame (evalLet h bindings body)
  | block steps => exact .inFrame (evalBlock h steps)
  | select scrutinee arms => exact .bind (h.eval scrutinee) fun v => select h v arms _
  | lambda name params body => exact .closure _ _ _
  | call callee args location =>
    exact .bind (h.eval callee) fun f => .bind (evalItems h args) fun _ => whenReady h f (.call ..)
  | moduleDecl name exports functions => exact .evalModuleDecl name exports functions
  | moduleRef name => exact .evalModuleRef name
  | functionRef module name =>
    exact .bind (h.eval module) fun m => whenReady h m (.functionRef name)
  | spawn function => exact .bind (h.eval function) fun f => whenReady h f .spawn
  | raise tag message => exact .bind (h.eval message) fun v => whenReady h v (.raise tag)
  | attempt body arms => exact evalAttempt h body arms

theorem evalStep (e : Expr) : Conduct E.context (· = ·) (E.evalStep e) := by
  refine .bind (.gets _) fun interrupted => ?_
  split
  · exact .fail _
  · exact evalKind h e

theorem proceedStep (w : Work) : Conduct E.context w.reach (E.proceedStep w) := by
  cases w with
  | letIn bindings body => exact evalLet h bindings body
  | block steps => exact evalBlock h steps
  | yield v => exact .pure v
  | select value arms unmatched => exact select h value arms unmatched

theorem connectiveLeft (op : BinaryOp) (right : Expr) (left : Value) :
    Conduct E.context (· = ·) (E.connectiveLeft op right left) := by
  unfold Engine.connectiveLeft
  split
  · exact .pure _
  · exact .pure _
  · exact .bind (h.eval right) fun r => whenReady h r (.connectiveRight op)
  · exact .fail _

theorem resumeStep (frame : Frame) (v : Value) :
    Conduct E.context frame.reach (E.resumeStep frame v) := by
  cases frame with
  | branch onTrue onFalse =>
    simp only [Engine.resumeStep]
    split
    · exact h.eval onTrue
    · exact h.eval onFalse
    · exact .fail _
  | connectiveLeft op right => exact connectiveLeft h op right v
  | connectiveRight op =>
    simp only [Engine.resumeStep]
    split
    · exact .pure _
    · exact .fail _
  | andThen next => exact h.proceed next
  | bindKeys value pattern next => exact bindWith h value pattern _ next
  | bindRetry value pattern keys next => exact bindWith h value pattern keys next
  | bindGuard value guards next =>
    refine .bind (.ofExcept _) fun holds => ?_
    split
    · exact checkGuards h value guards next
    · exact .noMatch value
  | armKeys trial => exact tryArm h trial _
  | armRetry trial keys => exact tryArm h trial keys
  | armGuard trial bindings guards =>
    refine .bind (.ofExcept _) fun holds => ?_
    split
    · exact checkArmGuards h trial bindings guards
    · exact h.proceed trial.next
  | alternative trial bindings body others =>
    refine .bind (.ofExcept _) fun holds => ?_
    split
    · exact evalInArm h bindings body
    · exact choose h trial bindings others
  | call args location => exact callValue h v args location
  | spawn => exact spawn h v
  | functionRef name => exact .resolveIn v name
  | raise tag => exact .raise tag v

theorem handle (handler : Handler) (o : Outcome) : Conduct E.context (· = ·) (E.handle handler o) := by
  cases handler with
  | resume frame env =>
    cases o with
    | ok v => exact .outcome (.within (h.resume frame v) env)
    | error e => exact .pure _
  | compute operation =>
    cases o with
    | ok v => exact .outcome (Strict.conduct operation _)
    | error e => exact .pure _
  | recover arms env =>
    cases o with
    | ok v => exact .pure _
    | error e =>
      simp only [Engine.handle]
      split
      · exact .outcome (.within (recover h e arms) env)
      · exact .pure _
  | apply function env =>
    cases o with
    | ok v => exact .outcome (.within (whenReady h function (.call ..)) env)
    | error e => exact .pure _
  | applyEither function env =>
    exact .bind (.written _) fun _ => .outcome (.within (whenReady h function (.call ..)) env)
  | report label => exact .bind (.gets _) fun _ => .bind (.log _) fun _ => .pure _

theorem step : Conducted E.step where
  eval := evalStep h
  proceed := proceedStep h
  resume := resumeStep h
  deliver := Conduct.composed.deliverStep h.deliver (handle h)

end Conducted

/-- Evaluation behaves, with whatever fuel. -/
theorem conducted_engine (context : Context) (fuel : Nat) : Conducted (engine context fuel) := by
  induction fuel with
  | zero => exact ⟨fun _ => .outOfFuel, fun _ => .outOfFuel, fun _ _ => .outOfFuel,
      fun _ _ => .outOfFuel⟩
  | succ fuel ih =>
    rw [engine_succ]
    exact ih.step

/-- Evaluating an expression of any kind leaves the environment exactly as it was: the same bindings,
frames, calls and module, whether the run ends with a value, with a promise, or with an error, a panic
or a lack of fuel at any point. -/
theorem environment_restored (context : Context) (fuel : Nat) (e : Expr) (m : Machine) :
    (finalWorld ((engine context fuel).eval e m)).rest.env = m.rest.env := by
  have hconduct := (conducted_engine context fuel).eval e
  rw [engine_context] at hconduct
  exact (hconduct m).env.symm

end Deferral
