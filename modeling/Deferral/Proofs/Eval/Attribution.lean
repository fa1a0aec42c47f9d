import Deferral.Proofs.Eval.Attempts
import Deferral.Proofs.Eval.Interruption
import Deferral.Proofs.Renaming.Extensions
import Deferral.Proofs.Renaming.Engines

/-!
# Errors name the calls that they come from

An error takes on the calls that are active where it is raised, or where it leaves the first body of a
function, and keeps them from then on. So in code that starts no tasks, where no promise has an outcome,
whatever fails under some active calls fails with an error without a stack, or with one whose stack
ends with these calls (`Error.Attributed`). That is a bond, for each stack of calls, between a run and
itself (`Bond.attributing`): its environments have those calls below their own. The body of a function
is run with one more call on top, and so an error that leaves it names that call
(`Engine.invoke_attributed`).

On its way out an error meets other calls, and attempts none of whose arms fits (`Selection.Unfit`), and
none of them gives it another stack (`PassesOut.eq_of_stack`).
-/

set_option autoImplicit false

namespace Deferral

/-- If the error carries a stack, it is one below which these calls are active. -/
def Error.Attributed (calls : StackTrace) (e : Error) : Prop := ∀ stack ∈ e.stack?, calls <:+ stack

instance (calls : StackTrace) (e : Error) : Decidable (e.Attributed calls) :=
  inferInstanceAs (Decidable (∀ stack ∈ e.stack?, calls <:+ stack))

namespace Error

variable {calls : StackTrace} {e : Error}

theorem attributed_of_stack (h : e.stack? = none) : e.Attributed calls := by
  rw [Attributed, h]
  exact nofun

theorem attributed_of_isPlain (h : e.isPlain = true) : e.Attributed calls := by
  cases e with
  | raised tag message stack => cases h
  | traced cause stack => cases h
  | _ => exact attributed_of_stack rfl

theorem Attributed.withStack {stack : StackTrace} (h : e.Attributed calls) (hstack : calls <:+ stack) :
    (e.withStack stack).Attributed calls := by
  cases e with
  | raised tag message s => exact h
  | traced cause s => exact h
  | interrupted => exact h
  | _ =>
    rintro _ ⟨⟩
    exact hstack

/-- An error that leaves a function carries a stack, unless it is an interruption. -/
theorem Attributed.stack_withStack (h : e.Attributed calls) (hne : e ≠ .interrupted) :
    ∃ inner, (e.withStack calls).stack? = some (inner ++ calls) := by
  cases e with
  | raised tag message s =>
    obtain ⟨inner, hinner⟩ := h s rfl
    exact ⟨inner, congrArg some hinner.symm⟩
  | traced cause s =>
    obtain ⟨inner, hinner⟩ := h s rfl
    exact ⟨inner, congrArg some hinner.symm⟩
  | interrupted => exact absurd rfl hne
  | _ => exact ⟨[], rfl⟩

theorem withStack_of_stack {stack s : StackTrace} (h : e.stack? = some s) : e.withStack stack = e := by
  cases e <;> first | rfl | cases h

end Error

/-! ## The bond -/

/-- The same machine on both sides, in code that runs under these calls. -/
def Bond.attributing (calls : StackTrace) : Bond where
  Code e := e.Sequential
  Scope env := calls <:+ env.calls
  Failure e := e.Attributed calls
  Spawns := False
  Paired _ m m' := m = m' ∧ m.Sequential ∧ calls <:+ m.rest.env.calls
  Given _ := False
  Breach _ := False

theorem Environment.calls_closeFrame (env : Environment) : env.closeFrame.calls = env.calls := by
  unfold closeFrame
  split <;> rfl

/-- The calls of a function body are those of its caller and its own. -/
theorem Engine.calls_bodyEnvironment {max : Nat} {id : FunctionId} {f : Function} {args : List Value}
    {location : Option Location} {caller env : Environment}
    (h : bodyEnvironment max id f args location caller = .ok env) :
    env.calls = callFrame f location :: caller.calls := by
  have hself : ∀ env, (bindSelf id f env).calls = env.calls := by
    intro env
    unfold bindSelf
    split
    · change (Environment.defineAll env _).calls = _
      rw [Environment.defineAll_eq_grow]
      rfl
    · split <;> rfl
  unfold bodyEnvironment Environment.enterCall at h
  split at h
  · cases h
  · obtain rfl := Except.ok.inj h
    rw [Environment.defineAll_eq_grow]
    exact hself _

section

variable {calls : StackTrace}

theorem Bond.deferring_attributing : (attributing calls).Deferring where
  same := by
    rintro F m m' ⟨rfl, -⟩
    rfl
  scope := by
    rintro F m m' ⟨rfl, -, h⟩
    exact h
  callable h hf params body hbody := h.2.1.functions _ _ params body hf hbody
  outcome := by
    rintro F m m' p o ⟨-, h, -⟩ ho
    rw [h.unsettled p] at ho
    cases ho
  withEnv := by
    rintro F m m' env ⟨rfl, h, -⟩ henv
    exact ⟨rfl, h.of_same rfl fun _ => rfl, henv⟩
  withFunction := by
    rintro F m m' f ⟨rfl, h, hcalls⟩ hf
    exact ⟨rfl, h.withFunction hf, hcalls⟩
  withModules := by
    rintro F m m' modules ⟨rfl, h, hcalls⟩
    exact ⟨rfl, h.of_same rfl fun _ => rfl, hcalls⟩
  interrupt := by
    rintro F m m' ⟨rfl, h, hcalls⟩
    exact ⟨rfl, h.of_same rfl fun _ => rfl, hcalls⟩
  addLog := by
    rintro F m m' entries ⟨rfl, h, hcalls⟩
    exact ⟨rfl, h.of_same rfl fun _ => rfl, hcalls⟩
  parts := by
    rintro e ⟨-, hparts⟩
    exact hparts
  spawns := by
    rintro e ⟨hplain, -⟩
    exact hplain e rfl
  openFrame h := h
  closeFrame {env} h := by
    change calls <:+ env.closeFrame.calls
    rw [Environment.calls_closeFrame]
    exact h
  grow _ h := h
  plain := Error.attributed_of_isPlain
  raised _ _ h := by
    rintro _ ⟨⟩
    exact h
  withStack h he := he.withStack h
  given h := h.elim
  uncaught h := h.elim
  fresh := by
    rintro F m m' ⟨rfl, h, hcalls⟩
    refine ⟨rfl, h.of_same rfl fun p => ?_, hcalls⟩
    simp only [Machine.withStore, Store.outcome?, Store.state_fresh]
  derived := by
    rintro F m m' p k ⟨rfl, h, hcalls⟩ -
    refine ⟨rfl, h.of_same rfl fun p => ?_, hcalls⟩
    simp only [Machine.withStore, Store.outcome?, Store.state_fresh]
  gathering := by
    rintro F m m' g ⟨rfl, h, hcalls⟩
    exact ⟨rfl, h.of_same rfl fun _ => rfl, hcalls⟩
  launched h _ _ := h
  registered := by
    rintro F m m' p k ks ⟨rfl, h, hcalls⟩ hp
    exact ⟨rfl, h.of_same rfl (Store.outcome?_register_eq hp), hcalls⟩

/-- In the body of a function the calls of the caller are active, and a refusal comes without a stack. -/
theorem Bond.enters_attributing {max : Nat} {id : FunctionId} {f : Function} {args : List Value}
    {location : Option Location} {caller : Environment} (h : calls <:+ caller.calls) :
    (attributing calls).Enters (bodyEnvironment max id f args location caller) := by
  cases henv : bodyEnvironment max id f args location caller with
  | ok env =>
    change calls <:+ env.calls
    rw [Engine.calls_bodyEnvironment henv]
    exact h.trans (List.suffix_cons _ _)
  | error e =>
    rcases Engine.bodyEnvironment_cases max id f args location caller with
      ⟨-, hrefused⟩ | ⟨-, env, hok, -⟩
    · obtain rfl := Except.error.inj (hrefused.symm.trans henv)
      exact Error.attributed_of_stack rfl
    · cases hok.symm.trans henv

/-- There is nothing to be delivered. -/
theorem lands_attributing (E E' : Engine) : Lands (.attributing calls) E E' := by
  rintro F m m' p k o ⟨-, h, -⟩ ho
  rw [h.unsettled p] at ho
  cases ho

/-- The host's operations fail with errors that carry no stack. -/
def Context.Untraced (context : Context) : Prop :=
  ∀ name args e, (context.host name args).answer = .error e → e.stack? = none

variable {context : Context} (hhost : context.Untraced) {wrap : EvalM Value → EvalM Value}
include hhost

/-- Two engines go along if they evaluate expressions alike. -/
theorem tandem_attributing
    (hwrap : ∀ n e, e.Sequential →
      (Bond.attributing calls).Together ((engine context n).evalStep e)
        ((wrapped wrap true context n).evalStep e) →
      (Bond.attributing calls).Together ((engine context n).evalStep e)
        (wrap ((wrapped wrap true context n).evalStep e))) (n : Nat) :
    Tandem (.attributing calls) (engine context n) (wrapped wrap true context n) := by
  have hbuild : ∀ n, (∀ e : Expr, e.Sequential →
      (Bond.attributing calls).Together ((engine context n).eval e)
        ((wrapped wrap true context n).eval e)) →
      (∀ w : Work, w.Fine (Bond.attributing calls).toTerms →
        (Bond.attributing calls).Together ((engine context n).proceed w)
          ((wrapped wrap true context n).proceed w)) →
      (∀ (frame : Frame) v, frame.Fine (Bond.attributing calls).toTerms →
        (Bond.attributing calls).Together ((engine context n).resume frame v)
          ((wrapped wrap true context n).resume frame v)) →
      Tandem (.attributing calls) (engine context n) (wrapped wrap true context n) := by
    intro n heval hproceed hresume
    refine (lands_attributing _ _).tandem Bond.deferring_attributing ?_ (fun name args e he => ?_)
      (fun _ _ _ _ _ => Bond.enters_attributing) heval hproceed hresume
    · rw [wrapped_context, engine_context]
    · rw [engine_context] at he
      exact Error.attributed_of_stack (hhost name args e he)
  induction n with
  | zero => exact hbuild 0 (fun _ _ => .outOfFuel) (fun _ _ => .outOfFuel) fun _ _ _ => .outOfFuel
  | succ n ih =>
    refine hbuild (n + 1) (fun e he => hwrap n e he (ih.evalStep he)) (fun w hw => ih.proceedStep hw)
      fun frame v hframe => ?_
    have hspawn : frame ≠ .spawn := by
      rintro rfl
      exact hframe
    rw [wrapped_resume]
    exact ih.resumeStep hframe v fun h => absurd h hspawn

/-- Whatever fails, fails with an error that is attributed to the calls that are active. -/
theorem Engine.eval_attributed {n : Nat} {e : Expr} {m m₁ : Machine} {x : Error} (he : e.Sequential)
    (hm : m.Sequential) (h : (engine context n).eval e m = .error (.error x) m₁) :
    x.Attributed m.rest.env.calls := by
  have T : Tandem (.attributing m.rest.env.calls) (engine context n) (wrapped id true context n) :=
    tandem_attributing hhost (fun _ _ _ h => h) n
  have hr := T.eval e he 0 m m ⟨rfl, hm, List.suffix_refl _⟩
  rw [h] at hr
  generalize (wrapped id true context n).eval e m = r at hr
  cases hr with
  | error _ hx _ => exact hx x rfl
  | breach ha _ => exact ha.elim

end

/-! ## Calls -/

namespace Engine

section

variable {E : Engine} {id : FunctionId} {f : Function} {params : List String} {body : Expr}
  {args : List Value} {location : Option Location} {m m₁ : Machine} {x : Error} {env : Environment}
  (hbody : f.body = .code params body) (harity : args.length = params.length)
include hbody harity

theorem invoke_of_code
    (henv : bodyEnvironment E.context.maxCallDepth id f args location m.rest.env = .ok env) :
    E.invoke id f args location m = EvalM.within env (EvalM.traced env.calls (E.eval body)) m := by
  have hcount : ¬args.length ≠ f.arity := by
    rw [Function.arity, hbody]
    exact not_not_intro harity
  rw [invoke, if_neg hcount, hbody]
  simp only [EvalM.environment, EvalM.gets, Bind.bind, EStateM.bind, henv]
  rfl

/-- A call fails as its body does, with a stack. -/
theorem failure_of_invoke
    (henv : bodyEnvironment E.context.maxCallDepth id f args location m.rest.env = .ok env)
    (h : E.invoke id f args location m = .error (.error x) m₁) :
    ∃ e m₂, E.eval body (m.withEnv env) = .error (.error e) m₂ ∧ x = e.withStack env.calls := by
  rw [invoke_of_code hbody harity henv] at h
  change EvalM.ensuring (EvalM.traced env.calls (E.eval body)) _ (m.withEnv env) = _ at h
  unfold EvalM.ensuring EvalM.traced at h
  cases hr : E.eval body (m.withEnv env) with
  | ok v m₂ =>
    rw [hr] at h
    cases h
  | error a m₂ =>
    rw [hr] at h
    cases a with
    | error e =>
      cases h
      exact ⟨e, m₂, rfl, rfl⟩
    | panic payload => cases h
    | outOfFuel => cases h

end

/-- A call that fails, and not with an interruption, fails with an error that names the call below all
that was called from it. -/
theorem invoke_attributed {context : Context} (hhost : context.Untraced) {n : Nat} {id : FunctionId}
    {f : Function} {params : List String} {body : Expr} {args : List Value}
    {location : Option Location} {m m₁ : Machine} {x : Error} (hm : m.Sequential)
    (hbody : f.body = .code params body) (hcode : body.Sequential)
    (harity : args.length = params.length) (hdepth : m.rest.env.callDepth < context.maxCallDepth)
    (h : (engine context n).invoke id f args location m = .error (.error x) m₁)
    (hne : x ≠ .interrupted) :
    ∃ inner, x.stack? = some (inner ++ callFrame f location :: m.rest.env.calls) := by
  obtain ⟨env, henv⟩ : ∃ env, bodyEnvironment (engine context n).context.maxCallDepth id f args location
      m.rest.env = .ok env := by
    rcases bodyEnvironment_cases (engine context n).context.maxCallDepth id f args location m.rest.env
      with ⟨hfull, -⟩ | ⟨-, env, henv, -⟩
    · rw [engine_context] at hfull
      exact absurd hdepth (Nat.not_lt.2 hfull)
    · exact ⟨env, henv⟩
  obtain ⟨e, m₂, hfails, rfl⟩ := failure_of_invoke hbody harity henv h
  have hcalls := calls_bodyEnvironment henv
  have hsequential : (m.withEnv env).Sequential := hm.of_same rfl fun _ => rfl
  have hattributed : e.Attributed env.calls := eval_attributed hhost hcode hsequential hfails
  rw [hcalls] at hattributed hne ⊢
  refine hattributed.stack_withStack ?_
  rintro rfl
  exact hne rfl

end Engine

/-! ## On the way out -/

/-- No arm of a selection fits, and nothing is left to a promise. -/
structure Selection.Unfit (context : Context) (n : Nat) (value : Value) (unmatched : Unmatched)
    (arms : List Arm) (m : Machine) : Prop where
  left : ((script value unmatched arms).run context n m).left = none
  steps : Position.Steps (.start arms) ((script value unmatched arms).run context n m).acts .unmatched

/-- An evaluation fails with the first error, and one around it with the second: a call of a function
whose body fails, or an attempt none of whose arms fits. -/
inductive PassesOut (context : Context) : Error → Error → Prop
  | call {n : Nat} {id : FunctionId} {f : Function} {params : List String} {body : Expr}
      {args : List Value} {location : Option Location} {env : Environment} {m m₁ m₂ : Machine}
      {e e' : Error} (hbody : f.body = .code params body) (harity : args.length = params.length)
      (henv : bodyEnvironment context.maxCallDepth id f args location m.rest.env = .ok env)
      (hfails : (engine context n).eval body (m.withEnv env) = .error (.error e) m₁)
      (hcall : (engine context n).invoke id f args location m = .error (.error e') m₂) :
      PassesOut context e e'
  | attempt {n : Nat} {body : Expr} {arms : List Arm} {m m₁ m₂ : Machine} {e e' : Error}
      (hfails : (engine context n).attempted body m = .ok (.error e) m₁)
      (hunfit : e.catchable = true → ∃ triple, m₁.triple? e = some triple ∧
        Selection.Unfit context n triple (.rethrow e) arms m₁)
      (hattempt : (engine context n).evalAttempt body arms m = .error (.error e') m₂) :
      PassesOut context e e'

/-- An attempt none of whose arms fits fails as its body does. -/
theorem Engine.evalAttempt_of_unfit {context : Context} {n : Nat} {body : Expr} {arms : List Arm}
    {m m₁ m₂ : Machine} {e e' : Error}
    (hfails : (engine context n).attempted body m = .ok (.error e) m₁)
    (hunfit : e.catchable = true → ∃ triple, m₁.triple? e = some triple ∧
      Selection.Unfit context n triple (.rethrow e) arms m₁)
    (h : (engine context n).evalAttempt body arms m = .error (.error e') m₂) : e' = e := by
  cases hcatchable : e.catchable with
  | false =>
    rw [evalAttempt_of_uncaught hfails hcatchable] at h
    cases h
    rfl
  | true =>
    obtain ⟨triple, htriple, hleft, hsteps⟩ := hunfit hcatchable
    rw [evalAttempt_of_caught hfails hcatchable, recover_eq htriple, Selection.select_eq] at h
    obtain ⟨m', hspent | ⟨E, hrethrown⟩⟩ := (Selection.Course.start n m₁).finds_nothing hleft hsteps
    · cases hspent.symm.trans h
    · cases hrethrown.symm.trans h
      rfl

namespace PassesOut

variable {context : Context} {e e' : Error} {stack : StackTrace}

theorem eq_of_stack (h : PassesOut context e e') (hstack : e.stack? = some stack) : e' = e := by
  cases h with
  | @call n _ _ _ _ _ _ env _ _ _ _ _ hbody harity henv hfails hcall =>
    rw [← engine_context context n] at henv
    obtain ⟨e₁, m₃, hfails₁, rfl⟩ := Engine.failure_of_invoke hbody harity henv hcall
    cases hfails.symm.trans hfails₁
    exact Error.withStack_of_stack hstack
  | attempt hfails hunfit hattempt => exact Engine.evalAttempt_of_unfit hfails hunfit hattempt

/-- An error that carries a stack comes through any number of calls and handlers as it is. -/
theorem eq_of_steps (h : Relation.ReflTransGen (PassesOut context) e e')
    (hstack : e.stack? = some stack) : e' = e := by
  induction h with
  | refl => rfl
  | tail _ hpasses ih =>
    subst ih
    exact hpasses.eq_of_stack hstack

end PassesOut

/-! ## Everywhere in a run -/

/-- Ends with `a` where the computation fails with an error that is not attributed to the calls that
were active when it began. -/
def EvalM.attributing (a : Abort) (x : EvalM Value) : EvalM Value := fun m =>
  match x m with
  | .error (.error e) m₁ =>
    if e.Attributed m.rest.env.calls then .error (.error e) m₁ else .error a m₁
  | result => result

/-- That makes no difference to a computation all of whose failures are attributed. -/
theorem Bond.Together.attributing {calls : StackTrace} {x y : EvalM Value} (a : Abort)
    (h : (Bond.attributing calls).Together x y)
    (hx : ∀ m e m₁, m.Sequential → x m = .error (.error e) m₁ → e.Attributed m.rest.env.calls) :
    (Bond.attributing calls).Together x (EvalM.attributing a y) := by
  intro F m m' hm
  have hr := h F m m' hm
  obtain ⟨rfl, hsequential, -⟩ := hm
  have hfails := fun e m₁ => hx m e m₁ hsequential
  unfold EvalM.attributing
  generalize x m = r, y m = r' at hr hfails ⊢
  cases hr with
  | ok v h => exact .ok v h
  | error x hx h =>
    cases x with
    | error e =>
      dsimp only
      rw [if_pos (hfails e _ rfl)]
      exact .error _ hx h
    | panic payload => exact .error _ hx h
    | outOfFuel => exact .error _ hx h
  | breach ha _ => exact ha.elim

/-- Giving up wherever an evaluation fails with an error that is not attributed to the active calls makes
no difference. -/
theorem attributed_throughout {context : Context} (hhost : context.Untraced) {e : Expr}
    (he : e.Sequential) {m : Machine} (hm : m.Sequential) (a : Abort) (n : Nat) :
    (wrapped (EvalM.attributing a) true context n).eval e m = (engine context n).eval e m := by
  have T : Tandem (.attributing []) (engine context n)
      (wrapped (EvalM.attributing a) true context n) := by
    refine tandem_attributing hhost (fun n e he h => h.attributing a fun m x m₁ hm hfails => ?_) n
    have hsucc : (engine context (n + 1)).eval e m = .error (.error x) m₁ := hfails
    exact Engine.eval_attributed hhost he hm hsucc
  have hr := T.eval e he 0 m m ⟨rfl, hm, List.nil_suffix⟩
  generalize (engine context n).eval e m = r,
    (wrapped (EvalM.attributing a) true context n).eval e m = r' at hr
  cases hr with
  | ok v h => rw [h.1]
  | error x hx h => rw [h.1]
  | breach ha _ => exact ha.elim

/-! ## Promises out of reach -/

/-- The machine without its promises. -/
def Machine.withoutPromises (m : Machine) : Machine := m.withStore .empty

theorem Machine.extends_withoutPromises (m : Machine) : m.withoutPromises.Extends m where
  state _ hp := absurd hp (Nat.not_lt_zero _)
  promises := Nat.zero_le _
  gather _ hi := absurd hi (Nat.not_lt_zero _)
  gathers := Nat.zero_le _
  function _ _ := rfl
  functions := Nat.le_refl _
  env := rfl
  modules := rfl
  held := rfl
  interrupted := rfl
  queue := rfl

/-- The outcomes of promises are out of reach for a call with these arguments. -/
inductive Machine.Secluded (context : Context) (m : Machine) (args : List Value) : Prop
  /-- There is none. -/
  | unsettled (h : ∀ p, m.store.outcome? p = none)
  /-- No promise is mentioned: with other identities for promises everything is the same. The host does
  not look at identities. -/
  | unmentioned (h : ∀ r : Renaming, r.Keeps m.withoutPromises →
      r.Fixes m.withoutPromises ∧ args.map (Value.rename r) = args ∧ context.Natural r)

/-- A call in a secluded machine fails as it does in one where no promise has an outcome. -/
theorem Machine.Secluded.failure {context : Context} {m m₁ : Machine} {args : List Value}
    (h : m.Secluded context args) {n : Nat} {id : FunctionId} {f : Function}
    {location : Option Location} {x : Error} (hf : m.current? id = some f)
    (hfails : (engine context n).invoke id f args location m = .error (.error x) m₁) :
    ∃ m₂ m₃ x₀, (∀ p, m₂.store.outcome? p = none) ∧ m₂.rest = m.rest ∧
      x₀.stack? = x.stack? ∧ (x₀ = .interrupted → x = .interrupted) ∧
      (engine context n).invoke id f args location m₂ = .error (.error x₀) m₃ := by
  cases h with
  | unsettled h => exact ⟨m, m₁, x, h, rfl, rfl, fun h => h, hfails⟩
  | unmentioned h =>
    have hkeeps := m.withoutPromises.past_keeps m
    obtain ⟨hfixes, hargs, hnatural⟩ := h _ hkeeps
    have hembeds := m.extends_withoutPromises.embeds hfixes (X := fun _ => none) nofun
    have hr := (natural_engine hnatural n).invoke id f args location _ m hembeds
    obtain ⟨g, hg, -⟩ := Option.map_eq_some_iff.1 hf
    have hid := hkeeps.function id (Array.getElem?_eq_some_iff.1 hg).1
    have hfixed := hembeds.current? id
    rw [hid, hf, show m.withoutPromises.current? id = some f from hf] at hfixed
    rw [hid, ← Option.some.inj hfixed, hargs, Shadows.lead_none, Nat.add_zero, hfails] at hr
    have hnone : ∀ p, m.withoutPromises.store.outcome? p = none := fun p =>
      congrArg PromiseState.outcome? (Store.state_of_not_has (Nat.not_lt_zero _))
    generalize hrun : (engine context n).invoke id f args location m.withoutPromises = r at hr
    cases r with
    | ok v m₂ => cases hr
    | error a m₂ =>
      cases a with
      | error x₀ =>
        cases hr
        refine ⟨_, m₂, x₀, hnone, rfl, (Error.stack?_rename _ _).symm, ?_, hrun⟩
        rintro rfl
        rfl
      | panic payload => cases hr
      | outOfFuel =>
        cases hr with
        | spent hlead => exact absurd hlead (Shadows.lead_none ▸ Nat.lt_irrefl 0)

/-! ## Stack traces -/

/-- Stack traces are faithful, in code that starts no tasks and for which the outcomes of promises are
out of reach, if the host's operations fail with errors that carry no stack. First, if a call of a
function with the right number of arguments and within the limit fails, and not with an interruption,
then the error carries a stack: what was called from the function and is active where the error comes
from, then the call itself, then the calls that were active already. The call is there with the name of
the function, after that of its module if it is in one that is still there, and with the source, line
and column it was made from, if these are known. Second, this stack does not change on the way out,
through any number of calls and of handlers that do not match. Third, where no promise has an outcome,
all evaluations in a run, at whatever depth, fail with errors that are attributed to the calls that are
active there. -/
theorem stack_traces_faithful {context : Context} (hhost : context.Untraced) {m : Machine}
    (hcode : ∀ id f params body, m.function? id = some f → f.body = .code params body →
      body.Sequential) :
    (∀ (n : Nat) (id : FunctionId) (f : Function) (params : List String) (body : Expr)
        (args : List Value) (location : Option Location) (x : Error) (m₁ : Machine),
      m.current? id = some f → f.body = .code params body → args.length = params.length →
      m.rest.env.callDepth < context.maxCallDepth → m.Secluded context args →
      (engine context n).invoke id f args location m = .error (.error x) m₁ → x ≠ .interrupted →
        (∃ inner frame, x.stack? = some (inner ++ frame :: m.rest.env.calls) ∧
          (frame.function = match f.module with
            | some module => module.name.text ++ "." ++ f.name
            | none => f.name) ∧
          match location with
          | some l => frame.source = l.source ∧ frame.line = some l.line ∧ frame.column = some l.column
          | none => frame.source = "<unknown>" ∧ frame.line = none ∧ frame.column = none) ∧
        ∀ x', Relation.ReflTransGen (PassesOut context) x x' → x' = x) ∧
    ((∀ p, m.store.outcome? p = none) → ∀ (e : Expr) (a : Abort) (n : Nat), e.Sequential →
      (wrapped (EvalM.attributing a) true context n).eval e m = (engine context n).eval e m) := by
  refine ⟨fun n id f params body args location x m₁ hf hbody harity hdepth hm hfails hne => ?_,
    fun hm e a n he => attributed_throughout hhost he ⟨hm, hcode⟩ a n⟩
  obtain ⟨m₂, m₃, x₀, hunsettled, hrest, hstack, hinterrupted, hfails₀⟩ := hm.failure hf hfails
  have hm₂ : m₂.Sequential := by
    refine ⟨hunsettled, fun id f params body hf => ?_⟩
    rw [Machine.function?, hrest] at hf
    exact hcode id f params body hf
  have hsequential : body.Sequential := by
    obtain ⟨g, hg, rfl⟩ := Option.map_eq_some_iff.1 hf
    exact hcode id g params body hg hbody
  rw [← hrest] at hdepth ⊢
  obtain ⟨inner, hinner⟩ := Engine.invoke_attributed hhost hm₂ hbody hsequential harity hdepth hfails₀
    fun h => hne (hinterrupted h)
  rw [hstack] at hinner
  refine ⟨⟨inner, callFrame f location, hinner, rfl, ?_⟩, fun x' hpasses =>
    PassesOut.eq_of_steps hpasses hinner⟩
  cases location <;> exact ⟨rfl, rfl, rfl⟩

/-- A module with one function. -/
def harbour : Module := ⟨⟨["Harbour"]⟩, ["lost"], [("lost", ⟨0⟩)]⟩

/-- The function of the module looks up a name that is not there. -/
def lost : Function := ⟨"lost", .code [] (.identifier "nowhere"), [], some harbour⟩

def quay : Location := ⟨"port", 3, 7⟩

/-- A call of the first function there is. -/
def callFirst : Expr := .call (.literal (.function ⟨0⟩)) [] (some quay)

/-- Handles what is raised as `failed`. -/
def onFailed : Arm :=
  .mk (.tuple [.literal (.symbol "failed"), .wildcard, .wildcard]) [(none, .literal .unit)]

theorem stack_traces_faithful_lost :
    let context : Context := ⟨100, .immediate, Session.host⟩
    let main : StackFrame := ⟨"main", "main", some 1, some 1⟩
    let m : Machine :=
      ⟨.empty, ⟨⟨[], [], [main], none⟩, #[lost], [harbour], fun _ => false, false, [], []⟩⟩
    let x : Error :=
      .traced (.undefined "nowhere" .identifier) [⟨"port", "Harbour.lost", some 3, some 7⟩, main]
    (context.Untraced ∧ (∀ p, m.store.outcome? p = none) ∧
      ∀ id f params body, m.function? id = some f → f.body = .code params body → body.Sequential) ∧
    (∃ m₁, (engine context 20).invoke ⟨0⟩ lost [] (some quay) m = .error (.error x) m₁) ∧
    (∃ inner frame, x.stack? = some (inner ++ frame :: m.rest.env.calls) ∧
      frame.function = "Harbour.lost" ∧ frame.source = "port" ∧ frame.line = some 3 ∧
      frame.column = some 7) ∧
    (∃ x', PassesOut context x x') ∧ (∀ x', PassesOut context x x' → x' = x) ∧
    ∀ a n, (wrapped (EvalM.attributing a) true context n).eval callFirst m =
      (engine context n).eval callFirst m := by
  intro context main m x
  have hhost : context.Untraced := by
    intro name args e h
    change (Session.host name args).answer = _ at h
    unfold Session.host at h
    split at h <;> cases h <;> rfl
  have hunsettled : ∀ p, m.store.outcome? p = none := fun p =>
    congrArg PromiseState.outcome? (Store.state_of_not_has (Nat.not_lt_zero _))
  have hcode : ∀ id f params body, m.function? id = some f → f.body = .code params body →
      body.Sequential := by
    intro id f params body hf hbody
    have hmem : f ∈ m.rest.functions := Array.mem_of_getElem? hf
    obtain rfl : f = lost := by simpa [m] using hmem
    cases hbody
    exact ⟨nofun, nofun⟩
  have hcall : callFirst.Sequential := by
    refine ⟨nofun, fun e he => ?_⟩
    rw [List.mem_singleton.1 he]
    exact ⟨nofun, nofun⟩
  have hrun : ∃ m₁, (engine context 20).invoke ⟨0⟩ lost [] (some quay) m = .error (.error x) m₁ :=
    ⟨_, rfl⟩
  have hpasses : PassesOut context x x := by
    have hunfit := Selection.Position.Steps.single (.misfits onFailed [])
    exact @PassesOut.attempt context 20 callFirst [onFailed] m _ _ x x rfl
      (fun _ => ⟨_, rfl, rfl, hunfit⟩) rfl
  obtain ⟨hcalls, hthroughout⟩ := stack_traces_faithful hhost hcode
  obtain ⟨m₁, hfails⟩ := hrun
  obtain ⟨⟨inner, frame, hstack, hfunction, hplace⟩, hout⟩ := hcalls 20 ⟨0⟩ lost []
    (.identifier "nowhere") [] (some quay) x m₁ rfl rfl rfl (by decide) (.unsettled hunsettled) hfails
    nofun
  exact ⟨⟨hhost, hunsettled, hcode⟩, ⟨m₁, hfails⟩, ⟨inner, frame, hstack, hfunction, hplace⟩,
    ⟨x, hpasses⟩, fun x' h => hout x' (.single h), fun a n => hthroughout hunsettled callFirst a n hcall⟩

end Deferral
