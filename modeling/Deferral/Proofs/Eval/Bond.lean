import Deferral.Proofs.Eval.PlainErrors
import Deferral.Proofs.Eval.Protocol
import Deferral.Proofs.Pattern.Guards

/-!
# What two runs have in common

To show that something never happens in a run, compare the engine with one that gives up when it
happens, or writes it down, and show that this makes no difference. A `Bond` says what has to be kept
up for that: what code is run and in which environments, which errors and outcomes there are, and how
the machines of the two runs are related while continuations are in flight. `Together` is what is then
shown of computations. This module has one lemma for each way of putting computations together.

A bond may let the two runs part in one way: where the first one is interrupted, the second one may be
cut short by something that no program can catch (`Bond.Breach`).
-/

set_option autoImplicit false

namespace Deferral

/-- The expressions right inside an expression. -/
def Expr.parts : Expr → List Expr
  | .literal _ => []
  | .identifier _ => []
  | .tuple items => items
  | .sequence items => items
  | .set items => items
  | .dict entries => Engine.flatten entries
  | .binary _ left right => [left, right]
  | .unary _ operand => [operand]
  | .branch condition onTrue onFalse => [condition, onTrue, onFalse]
  | .letIn bindings body => body :: bindings.flatMap bindingParts
  | .block steps => steps.flatMap Step.parts
  | .select scrutinee arms => scrutinee :: arms.flatMap Arm.parts
  | .lambda _ _ body => [body]
  | .call callee args _ => callee :: args
  | .moduleDecl _ _ functions => functions.map FunctionDecl.body
  | .moduleRef _ => []
  | .functionRef module _ => [module]
  | .spawn function => [function]
  | .raise _ message => [message]
  | .attempt body arms => body :: arms.flatMap Arm.parts

/-- What runs consist of. -/
structure Terms where
  /-- The code that is run. -/
  Code : Expr → Prop
  /-- The environments that code is run in. -/
  Scope : Environment → Prop
  /-- The errors there are. -/
  Failure : Error → Prop
  /-- Whether tasks are started. -/
  Spawns : Prop

/-- What is kept up between two runs. -/
structure Bond extends Terms where
  /-- The machines the two can be in at a time, while these continuations are in flight. -/
  Paired : InFlight → Machine → Machine → Prop
  /-- The outcomes that promises have. -/
  Given : Outcome → Prop
  /-- What can cut the second run short where the first one is interrupted. -/
  Breach : Abort → Prop

namespace Bond

/-- The code of a function is code that is run. -/
def Callable (B : Bond) (f : Function) : Prop :=
  ∀ params body, f.body = .code params body → B.Code body

/-- What evaluation does to a machine beside its promises does not harm the bond. -/
structure Lawful (B : Bond) : Prop where
  same : ∀ {F m m'}, B.Paired F m m' → m' = m.withLog m'.rest.log
  scope : ∀ {F m m'}, B.Paired F m m' → B.Scope m.rest.env
  callable : ∀ {F m m' id f}, B.Paired F m m' → m.function? id = some f → B.Callable f
  outcome : ∀ {F m m' p o}, B.Paired F m m' → m.store.outcome? p = some o → B.Given o
  withEnv : ∀ {F m m' env}, B.Paired F m m' → B.Scope env →
    B.Paired F (m.withEnv env) (m'.withEnv env)
  withFunction : ∀ {F m m' f}, B.Paired F m m' → B.Callable f →
    B.Paired F (m.withFunction f) (m'.withFunction f)
  withModules : ∀ {F m m'} (modules : Registry), B.Paired F m m' →
    B.Paired F { m with rest := { m.rest with modules } } { m' with rest := { m'.rest with modules } }
  interrupt : ∀ {F m m'}, B.Paired F m m' →
    B.Paired F { m with rest := { m.rest with interrupted := true } }
      { m' with rest := { m'.rest with interrupted := true } }
  addLog : ∀ {F m m'} (entries : List LogEntry), B.Paired F m m' →
    B.Paired F (m.withLog (entries ++ m.rest.log)) (m'.withLog (entries ++ m'.rest.log))
  parts : ∀ {e}, B.Code e → ∀ e' ∈ e.parts, B.Code e'
  spawns : ∀ {e}, B.Code (.spawn e) → B.Spawns
  openFrame : ∀ {env}, B.Scope env → B.Scope env.openFrame
  closeFrame : ∀ {env}, B.Scope env → B.Scope env.closeFrame
  grow : ∀ {env} (more : List Binding), B.Scope env → B.Scope (env.grow more)
  plain : ∀ {e}, e.isPlain = true → B.Failure e
  raised : ∀ {env} (tag message : String), B.Scope env → B.Failure (.raised tag message env.calls)
  withStack : ∀ {env e}, B.Scope env → B.Failure e → B.Failure (e.withStack env.calls)
  given : ∀ {e}, B.Given (.error e) → B.Failure e
  uncaught : ∀ {a}, B.Breach a → ∀ e, a ≠ .error e

/-- How two runs end. -/
inductive Meets (B : Bond) (F : InFlight) {α : Type} :
    EStateM.Result Abort Machine α → EStateM.Result Abort Machine α → Prop
  | ok (a : α) {m m' : Machine} (h : B.Paired F m m') : Meets B F (.ok a m) (.ok a m')
  | error (e : Abort) {m m' : Machine} (he : ∀ x, e = .error x → B.Failure x)
      (h : B.Paired F m m') : Meets B F (.error e m) (.error e m')
  | breach {a : Abort} (ha : B.Breach a) {m m' : Machine} (h : B.Paired F m m') :
      Meets B F (.error (.error .interrupted) m) (.error a m')

/-- From machines that are paired, two computations come to such an end. -/
def Together (B : Bond) {α : Type} (x y : EvalM α) : Prop :=
  ∀ F m m', B.Paired F m m' → B.Meets F (x m) (y m')

variable {B : Bond} {F : InFlight} {m m' : Machine} {α β : Type}

namespace Meets

variable {x y : EvalM α} {f g : α → EvalM β}

/-- Goes on from where two runs have come, if what is in flight then may as well be forgotten. -/
theorem chain {G : InFlight} (hx : B.Meets G (x m) (y m'))
    (hforget : ∀ m m', B.Paired G m m' → B.Paired F m m')
    (hf : ∀ a m₁ m₁', x m = .ok a m₁ → B.Paired G m₁ m₁' → B.Meets F (f a m₁) (g a m₁')) :
    B.Meets F ((x >>= f) m) ((y >>= g) m') := by
  change B.Meets F (EStateM.bind x f m) (EStateM.bind y g m')
  unfold EStateM.bind
  generalize hr : x m = r, y m' = r' at hx
  cases hx with
  | ok a h => exact hf a _ _ hr h
  | error e he h => exact .error e he (hforget _ _ h)
  | breach ha h => exact .breach ha (hforget _ _ h)

theorem bind (hx : B.Meets F (x m) (y m'))
    (hf : ∀ a m₁ m₁', x m = .ok a m₁ → B.Paired F m₁ m₁' → B.Meets F (f a m₁) (g a m₁')) :
    B.Meets F ((x >>= f) m) ((y >>= g) m') :=
  hx.chain (fun _ _ h => h) hf

theorem ensuring {after after' : Machine → Machine} (hx : B.Meets F (x m) (y m'))
    (hafter : ∀ m₁ m₁', B.Paired F m₁ m₁' → B.Paired F (after m₁) (after' m₁')) :
    B.Meets F (EvalM.ensuring x after m) (EvalM.ensuring y after' m') := by
  unfold EvalM.ensuring
  generalize x m = r, y m' = r' at hx
  cases hx with
  | ok a h => exact .ok a (hafter _ _ h)
  | error e he h => exact .error e he (hafter _ _ h)
  | breach ha h => exact .breach ha (hafter _ _ h)

end Meets

namespace Lawful

variable (L : B.Lawful)
include L

/-! ### What is the same on both sides -/

section

variable (h : B.Paired F m m')
include h

theorem env : m'.rest.env = m.rest.env := by rw [L.same h]; rfl

theorem store : m'.store = m.store := by rw [L.same h]; rfl

theorem functions : m'.rest.functions = m.rest.functions := by rw [L.same h]; rfl

theorem modules : m'.rest.modules = m.rest.modules := by rw [L.same h]; rfl

theorem interrupted : m'.rest.interrupted = m.rest.interrupted := by rw [L.same h]; rfl

theorem queue : m'.rest.queue = m.rest.queue := by rw [L.same h]; rfl

theorem directory : m'.directory = m.directory := by rw [L.same h]; rfl

theorem sight : m'.sight = m.sight := by rw [L.same h]; rfl

theorem current? (id : FunctionId) : m'.current? id = m.current? id := by rw [L.same h]; rfl

/-- A function has its code also when it has lost its module. -/
theorem callable_of_current? {id : FunctionId} {f : Function} (hf : m.current? id = some f) :
    B.Callable f := by
  obtain ⟨g, hg, rfl⟩ := Option.map_eq_some_iff.1 hf
  exact fun params body hbody => L.callable h hg params body hbody

end

theorem failure_of_plainly {r : Except Error α} (h : FailsPlainly r) :
    ∀ e, r = .error e → B.Failure e :=
  fun e he => L.plain (h e he)

/-- A match fails with the error of a promise, or with a plain one. -/
theorem failure_of_matching (h : B.Paired F m m') {p : Pattern} {v : Value} {keys : List Value}
    {e : Error} (he : p.matching m.sight v keys = .error e) : B.Failure e := by
  rcases Pattern.error_of_matching he with ⟨q, hq⟩ | ⟨fault, rfl⟩
  · exact L.given (L.outcome h hq)
  · exact L.plain rfl

theorem defineAll {env : Environment} (h : B.Scope env) (bindings : List (String × Value)) :
    B.Scope (env.defineAll bindings) := by
  rw [env.defineAll_eq_grow]
  exact L.grow _ h

end Lawful

namespace Together

variable {x y : EvalM α} {f g : α → EvalM β}

theorem pure (a : α) : B.Together (Pure.pure a : EvalM α) (Pure.pure a) := fun _ _ _ h => .ok a h

theorem bind (hx : B.Together x y) (hf : ∀ a, B.Together (f a) (g a)) :
    B.Together (x >>= f) (y >>= g) :=
  fun F m m' h => (hx F m m' h).bind fun a m₁ m₁' _ h₁ => hf a F m₁ m₁' h₁

theorem fail {e : Error} (he : B.Failure e) : B.Together (EvalM.fail e : EvalM α) (EvalM.fail e) :=
  fun _ _ _ h => .error _ (fun _ hx => by obtain rfl := Abort.error.inj hx; exact he) h

theorem panic (payload : Option String) :
    B.Together (throw (.panic payload) : EvalM α) (throw (.panic payload)) :=
  fun _ _ _ h => .error _ nofun h

theorem outOfFuel : B.Together (throw .outOfFuel : EvalM α) (throw .outOfFuel) :=
  fun _ _ _ h => .error _ nofun h

theorem ofExcept {r : Except Error α} (hr : ∀ e, r = .error e → B.Failure e) :
    B.Together (EvalM.ofExcept r) (EvalM.ofExcept r) := by
  cases r with
  | ok a => exact pure a
  | error e => exact fail (hr e rfl)

/-- Both look at something that is the same. -/
theorem gets {look : Machine → α} (hlook : ∀ F m m', B.Paired F m m' → look m' = look m) :
    B.Together (EvalM.gets look) (EvalM.gets look) := by
  intro F m m' h
  change B.Meets F (.ok (look m) m) (.ok (look m') m')
  rw [hlook F m m' h]
  exact .ok _ h

/-- Goes on with something that is the same, and of which more is known. -/
theorem gets_bind {look : Machine → α} {P : α → Prop}
    (hlook : ∀ F m m', B.Paired F m m' → look m' = look m ∧ P (look m))
    (hf : ∀ a, P a → B.Together (f a) (g a)) :
    B.Together (EvalM.gets look >>= f) (EvalM.gets look >>= g) := by
  intro F m m' h
  obtain ⟨hsame, hP⟩ := hlook F m m' h
  change B.Meets F (f (look m) m) (g (look m') m')
  rw [hsame]
  exact hf _ hP F m m' h

theorem traced (L : B.Lawful) {env : Environment} (henv : B.Scope env) (hx : B.Together x y) :
    B.Together (EvalM.traced env.calls x) (EvalM.traced env.calls y) := by
  intro F m m' h
  have hr := hx F m m' h
  unfold EvalM.traced
  generalize x m = r, y m' = r' at hr
  cases hr with
  | ok a h => exact .ok a h
  | error e he h =>
    cases e with
    | error e =>
      refine .error _ (fun x hx => ?_) h
      obtain rfl := Abort.error.inj hx
      exact L.withStack henv (he e rfl)
    | panic payload => exact .error _ nofun h
    | outOfFuel => exact .error _ nofun h
  | @breach a ha m₁ m₁' h =>
    -- a bare interruption takes on no stack, and the other is no error at all
    cases a with
    | error e => exact absurd rfl (L.uncaught ha e)
    | panic payload => exact .breach ha h
    | outOfFuel => exact .breach ha h

/-- Both are put into the same text. -/
theorem written {look : Machine → Option α} (hlook : ∀ F m m', B.Paired F m m' → look m' = look m) :
    B.Together (EvalM.written look) (EvalM.written look) := by
  intro F m m' h
  unfold EvalM.written
  rw [hlook F m m' h]
  split
  · exact .ok _ h
  · exact .error _ nofun h

variable (L : B.Lawful)
include L

/-- Goes on with the present environment. -/
theorem environment {f g : Environment → EvalM β}
    (hf : ∀ env, B.Scope env → B.Together (f env) (g env)) :
    B.Together (EvalM.environment >>= f) (EvalM.environment >>= g) :=
  gets_bind (fun _ _ _ h => ⟨L.env h, L.scope h⟩) hf

theorem quoted (v : Value) : B.Together (EvalM.quoted v) (EvalM.quoted v) :=
  written fun _ _ _ h => by rw [L.directory h]

theorem noMatch (v : Value) : B.Together (EvalM.noMatch v : EvalM α) (EvalM.noMatch v) :=
  bind (quoted L v) fun _ => fail (L.plain rfl)

theorem within {env : Environment} (henv : B.Scope env) (hx : B.Together x y) :
    B.Together (EvalM.within env x) (EvalM.within env y) := by
  intro F m m' h
  have hleft : EvalM.within env x m =
      EvalM.ensuring x (fun m₁ => m₁.withEnv m.rest.env) (m.withEnv env) := rfl
  have hright : EvalM.within env y m' =
      EvalM.ensuring y (fun m₁ => m₁.withEnv m.rest.env) (m'.withEnv env) := by
    rw [← L.env h]
    rfl
  rw [hleft, hright]
  exact (hx F _ _ (L.withEnv h henv)).ensuring fun _ _ h₁ => L.withEnv h₁ (L.scope h)

theorem modifyEnvironment {change : Environment → Environment}
    (hchange : ∀ env, B.Scope env → B.Scope (change env)) :
    B.Together (EvalM.modifyEnvironment change) (EvalM.modifyEnvironment change) := by
  intro F m m' h
  have hright : EvalM.modifyEnvironment change m' = .ok () (m'.withEnv (change m.rest.env)) := by
    rw [← L.env h]
    rfl
  rw [hright]
  exact .ok () (L.withEnv h (hchange _ (L.scope h)))

theorem define (bindings : List (String × Value)) :
    B.Together (EvalM.modifyEnvironment (·.defineAll bindings))
      (EvalM.modifyEnvironment (·.defineAll bindings)) :=
  modifyEnvironment L fun _ h => L.defineAll h bindings

theorem inFrame (hx : B.Together x y) : B.Together (EvalM.inFrame x) (EvalM.inFrame y) := by
  refine bind (modifyEnvironment L fun _ => L.openFrame) fun _ F m m' h => ?_
  refine (hx F m m' h).ensuring fun m₁ m₁' h₁ => ?_
  change B.Paired F (m₁.withEnv m₁.rest.env.closeFrame) (m₁'.withEnv m₁'.rest.env.closeFrame)
  rw [L.env h₁]
  exact L.withEnv h₁ (L.closeFrame (L.scope h₁))

theorem addFunction {f : Function} (hf : B.Callable f) :
    B.Together (EvalM.addFunction f) (EvalM.addFunction f) := by
  intro F m m' h
  change B.Meets F (.ok (FunctionId.mk m.rest.functions.size) (m.withFunction f))
    (.ok (FunctionId.mk m'.rest.functions.size) (m'.withFunction f))
  rw [L.functions h]
  exact .ok _ (L.withFunction h hf)

theorem log (entry : LogEntry) : B.Together (EvalM.log entry) (EvalM.log entry) :=
  fun _ _ _ h => .ok () (L.addLog [entry] h)

theorem logValues (values : List Value) :
    B.Together (EvalM.logValues values) (EvalM.logValues values) := by
  intro F m m' h
  let entries := (values.map fun v => LogEntry.value (m.directory.snapshot v)).reverse
  have hright : EvalM.logValues values m' = .ok () (m'.withLog (entries ++ m'.rest.log)) := by
    simp only [EvalM.logValues, L.directory h]
    rfl
  rw [hright]
  exact .ok () (L.addLog entries h)

theorem interrupt : B.Together (EvalM.modifyRest ({ · with interrupted := true }))
    (EvalM.modifyRest ({ · with interrupted := true })) :=
  fun _ _ _ h => .ok () (L.interrupt h)

theorem registerModule (module : Module) :
    B.Together (Deferral.registerModule module) (Deferral.registerModule module) := by
  intro F m m' h
  have hright : Deferral.registerModule module m' = .ok () { m' with rest :=
      { m'.rest with modules := Registry.register m.rest.modules module } } := by
    rw [← L.modules h]
    rfl
  rw [hright]
  exact .ok () (L.withModules _ h)

end Together

end Bond

end Deferral
