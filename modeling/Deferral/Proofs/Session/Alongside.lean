import Deferral.Proofs.Eval.Delivery

/-!
# Two sessions under a bond

The hosts of two sessions ask for the same, of engines that run in tandem. If the bond is also kept by
what a host changes by itself (`Bond.Hosted`), then the hosts are shown the same, and the sessions stay
`Alongside` each other, whatever the command (`Alongside.runWith`). The hosts have to abide by the bond
as well: the outcomes that they give to promises are ones that there are, and so are the environments
that they enter (`Command.Fine`).
-/

set_option autoImplicit false

namespace Deferral

/-- The bond is kept by what a host changes by itself, and hosts have any code run. -/
structure Bond.Hosted (B : Bond) : Prop extends B.Settling where
  code : ∀ e, B.Code e
  setModule : ∀ {env} (name : Option ModuleName), B.Scope env → B.Scope { env with module := name }
  resume : ∀ {F m m'}, B.Paired F m m' →
    B.Paired F { m with rest := { m.rest with interrupted := false } }
      { m' with rest := { m'.rest with interrupted := false } }
  hold : ∀ {F m m'} (held : Module → Bool), B.Paired F m m' →
    B.Paired F { m with rest := { m.rest with held } } { m' with rest := { m'.rest with held } }

/-- What a host supplies with a command, in an environment of its own, abides by the bond. -/
def Command.Fine (B : Bond) (env : Environment) (c : Command) : Prop := c.Supplies B.Given B.Scope env

namespace Session

/-- Two sessions with some settings that differ at most in their machines, which are paired. -/
structure Alongside (B : Bond) (context : Context) (s s' : Session) : Prop where
  context : s.context = context
  same : s' = { s with machine := s'.machine }
  paired : B.Paired 0 s.machine s'.machine

/-- A native function is no code. -/
theorem callable_native (B : Bond) (name : String) (operation : Native) (arity : Nat) :
    B.Callable (.ofNative name operation arity) := by
  intro params body h
  cases h

/-! ## What commands run -/

section

variable {B : Bond} {E E' : Engine} (T : Tandem B E E')
include T

theorem together_evalBoth (S : B.Settling) {a b : Expr} (ha : B.Code a) (hb : B.Code b) :
    B.Together (evalBoth E a b) (evalBoth E' a b) := by
  intro F m m' h
  refine (S.outcome_run (T.eval a ha) F m m' h).bind fun x m₁ m₁' hx h₁ => ?_
  refine (S.outcome_run (T.eval b hb) F m₁ m₁' h₁).bind fun y m₂ m₂' hy h₂ => ?_
  have hx := S.given_of_outcome (T.eval a ha) h hx
  have hy := S.given_of_outcome (T.eval b hb) h₁ hy
  have hends : B.Together (EvalM.ofExcept x >>= fun x => EvalM.ofExcept y >>= fun y => pure (x, y))
      (EvalM.ofExcept x >>= fun x => EvalM.ofExcept y >>= fun y => pure (x, y)) :=
    .bind (.ofExcept fun _ he => S.given (he ▸ hx)) fun _ =>
      .bind (.ofExcept fun _ he => S.given (he ▸ hy)) fun _ => .pure _
  exact hends F m₂ m₂' h₂

theorem together_deriveWith (source : PromiseId) {function : Expr} (hfunction : B.Code function)
    {handler : Value → Environment → Handler}
    (hhandler : ∀ f env, B.Scope env → (handler f env).Fine B.toTerms) :
    B.Together (deriveWith E source function handler) (deriveWith E' source function handler) :=
  .bind (T.eval function hfunction) fun f => .environment T.lawful fun env henv =>
    T.derive source _ (hhandler f env henv)

end

/-! ## Sessions -/

namespace Alongside

variable {B : Bond} {context : Context} {s s' : Session} {α : Type} (h : Alongside B context s s')
include h

/-- Other machines that are paired. -/
theorem withMachine {m m' : Machine} (hm : B.Paired 0 m m') :
    Alongside B context { s with machine := m } { s' with machine := m' } := by
  refine ⟨h.context, ?_, hm⟩
  rw [h.same]

theorem save (name : Option String) (v : Value) :
    Alongside B context (s.save name v) (s'.save name v) := by
  cases name with
  | none => exact h
  | some name =>
    refine ⟨h.context, ?_, h.paired⟩
    rw [h.same]
    rfl

theorem named (name : String) (p : PromiseId) :
    Alongside B context { s with promises := s.promises ++ [(name, p)] }
      { s' with promises := s'.promises ++ [(name, p)] } := by
  refine ⟨h.context, ?_, h.paired⟩
  rw [h.same]

theorem settings (settings : Context) (fuel : Nat) :
    Alongside B settings { s with context := settings, fuel }
      { s' with context := settings, fuel } := by
  refine ⟨rfl, ?_, h.paired⟩
  rw [h.same]

/-- Hosts hold other modules. -/
theorem holding (H : B.Hosted) (held : Module → Bool) :
    Alongside B context (s.holding held) (s'.holding held) :=
  h.withMachine (H.hold held h.paired)

section

variable (L : B.Lawful)
include L

theorem environment : s'.environment = s.environment := L.env h.paired

theorem view : s.SameView s' := by
  have hdirectory : s'.directory = s.directory := L.directory h.paired
  have hstore : s'.machine.store = s.machine.store := L.store h.paired
  refine ⟨?_, ?_, h.environment L, L.modules h.paired, L.queue h.paired, ?_, ?_, ?_, ?_, ?_, ?_, ?_, ?_⟩
  · rw [h.same]
  · rw [h.same]
  · rw [hstore]
  · rw [hstore]
  all_goals rw [hdirectory]

theorem native (name : String) (operation : Native) (arity : Nat) :
    Alongside B context { s with machine := defineNative s.machine name operation arity }
      { s' with machine := defineNative s'.machine name operation arity } := by
  have hdefined : ∀ m : Machine, defineNative m name operation arity =
      (m.withFunction (.ofNative name operation arity)).withEnv
        (m.rest.env.defineBuiltin name (.function ⟨m.rest.functions.size⟩)) := fun _ => rfl
  refine h.withMachine ?_
  rw [hdefined, hdefined, L.functions h.paired, L.env h.paired]
  exact L.withEnv (L.withFunction h.paired (callable_native B name operation arity))
    (L.grow [⟨name, .function ⟨s.machine.rest.functions.size⟩, true⟩] (L.scope h.paired))

end

/-- What is run together on both sides comes to the same end. -/
theorem meets (S : B.Settling) {x y : EvalM α} (hx : B.Together x y) :
    Meets (Alongside B context) s s' x y := by
  have hr := hx 0 s.machine s'.machine h.paired
  unfold Meets
  generalize x s.machine = r, y s'.machine = r' at hr
  cases hr with
  | ok a hm => exact .ok a (h.withMachine hm)
  | error e he hm => exact .error e (h.withMachine hm)
  | breach ha hm => exact absurd ha (S.unbroken _)

theorem makes (S : B.Settling) {x y : EvalM PromiseId} (hx : B.Together x y) :
    Makes (Alongside B context) (fun _ _ => True) s s' x y :=
  ⟨h.meets S hx, fun _ _ _ => trivial⟩

end Alongside

/-! ## Commands -/

section

variable {B : Bond} {context : Context} (H : B.Hosted)
include H

/-- Sessions alongside each other show the same, and so they do whatever they do by themselves. Who owns
the code of the host does not matter. -/
theorem mirror_alongside :
    Mirror (fun _ => Alongside B context) (fun _ => B.Scope) fun _ _ => True where
  view h := h.view H.toLawful
  inScope h := H.scope h.paired
  finds _ _ := trivial
  save name v h := h.save name v
  named name h _ := h.named name _
  interrupted flag h := by
    cases flag with
    | true => exact h.withMachine (H.interrupt h.paired)
    | false => exact h.withMachine (H.resume h.paired)
  withEnvironment h henv := h.withMachine (H.withEnv h.paired henv)
  define name v henv := H.grow [⟨name, v, false⟩] henv
  defineAll bindings henv := H.toLawful.defineAll henv bindings
  openFrame henv := H.openFrame henv
  closeFrame henv := H.closeFrame henv
  setModule name henv := H.setModule name henv

variable {E E' : Engine} (T : Tandem B E E') (hD : Lands B E E') (hE : Conducted E)
include T hD hE

/-- Engines that run in tandem bring them to the same ends. -/
theorem engines_alongside :
    Mirror.Engines (fun _ => Alongside B context) (fun _ _ => True) B.Given .plain E E' where
  eval e h := by
    rw [Expr.relabel_plain]
    exact h.meets H.toSettling (T.eval e (H.code e))
  evalItems es h := by
    rw [Expr.relabelItems_plain]
    exact h.meets H.toSettling (T.evalItems es fun e _ => H.code e)
  evalBoth a b h := by
    rw [Expr.relabel_plain, Expr.relabel_plain]
    exact h.meets H.toSettling (together_evalBoth T H.toSettling (H.code a) (H.code b))
  call function args h := by
    rw [Expr.relabel_plain]
    exact h.meets H.toSettling
      (.bind (T.eval function (H.code function)) fun f => T.callFunction f args)
  drain fromBack count h := h.meets H.toSettling (T.drain H.toSettling hD hE fromBack count 0)
  new h := by
    have hnew : B.Together (Promise.new >>= pure) (Promise.new >>= pure) :=
      H.toSettling.new_bind .pure
    exact h.makes H.toSettling hnew
  settled h ho := h.makes H.toSettling (hD.settled H.toSettling hE ho)
  fulfil h _ ho := h.meets H.toSettling (hD.fulfils H.toSettling hE _ ho)
  map p function h := by
    rw [Expr.relabel_plain]
    exact h.makes H.toSettling (together_deriveWith T p (H.code function) fun _ _ henv => henv)
  mapEither p function h := by
    rw [Expr.relabel_plain]
    exact h.makes H.toSettling (together_deriveWith T p (H.code function) fun _ _ henv => henv)
  all operands h := h.makes H.toSettling (hD.all_any H.toSettling hE operands)
  observe tag h _ := by
    refine h.meets H.toSettling fun F m m' hm => hD.onComplete H.toSettling.toDeferring ?_
    exact H.toSettling.launched hm trivial nofun
  build name exports functions h := by
    rw [Expr.relabelFunctions_plain]
    exact h.meets H.toSettling (T.evalModuleBuild name exports fun d _ => H.code d.body)

/-- Whatever the hosts ask for, they are shown the same. -/
theorem Alongside.runWith {s s' : Session} (h : Alongside B context s s') {c : Command}
    (hc : c.Fine B s.environment) :
    Replies (Alongside B context) (s.runWith E c) (s'.runWith E' c) := by
  have hrun : Replies (Alongside B context) (s.runWith E c) (s'.runWith E' (c.relabel .plain none)) :=
    (mirror_alongside H).runWith (engines_alongside H T hD hE) h hc
  rwa [Command.relabel_plain] at hrun

end

end Session

end Deferral
