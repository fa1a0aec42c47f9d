import Deferral.Proofs.Eval.Run
import Deferral.Proofs.Pattern.StandIn
import Deferral.Proofs.Transparency.Rules

/-!
# Evaluation where everything is there

Over an environment of inert values the engine computes what the rules say: if the erased form of a
transparent program ends with a value, then the program computes that value (`Faithful.eval`), and
nothing has changed but for names that were bound on the way. The proof goes by the fuel of the
engine, with one lemma for each of its functions; what each of them is given is erased, what the rules
speak about is not.
-/

set_option autoImplicit false

namespace Deferral

/-! ## Erasing work -/

def Work.erase : Work → Work
  | .letIn bindings body => .letIn (Expr.eraseBindings bindings) body.erase
  | .block steps => .block (Expr.eraseSteps steps)
  | .yield v => .yield v
  | .select value arms unmatched => .select value (Expr.eraseArms arms) unmatched

def Trial.erase (t : Trial) : Trial := ⟨t.value, t.arm.erase, Expr.eraseArms t.later, t.unmatched⟩

def Frame.erase : Frame → Frame
  | .branch onTrue onFalse => .branch onTrue.erase onFalse.erase
  | .connectiveLeft op right => .connectiveLeft op right.erase
  | .andThen next => .andThen next.erase
  | .bindGuard value guards next => .bindGuard value (guards.map Expr.erase) next.erase
  | .armGuard trial bindings guards => .armGuard trial.erase bindings (guards.map Expr.erase)
  | .alternative trial bindings body others =>
    .alternative trial.erase bindings body.erase (Arm.eraseAlternatives others)
  | frame => frame

theorem Arm.pattern_erase (arm : Arm) : arm.erase.pattern = arm.pattern.erase := by
  cases arm; rfl

theorem Arm.alternatives_erase (arm : Arm) :
    arm.erase.alternatives = Arm.eraseAlternatives arm.alternatives := by
  cases arm; rfl

/-! ## Work over inert values -/

section

variable (fs : Array Function) (d : Nat)

/-- Transparent work over inert values. -/
inductive Work.Fits : Work → Prop where
  | letIn {bindings : List (Pattern × Expr)} {body : Expr}
      (parts : ∀ e ∈ bindings.flatMap bindingParts, e.Transparent d) (b : body.Transparent d) :
      Work.Fits (.letIn bindings body)
  | block {steps : List Step} (parts : ∀ e ∈ steps.flatMap Step.parts, e.Transparent d) :
      Work.Fits (.block steps)
  | yield {v : Value} (inert : v.inert (allows fs) = true) : Work.Fits (.yield v)
  | select {v : Value} {arms : List Arm} (unmatched : Unmatched)
      (inert : v.inert (allows fs) = true)
      (parts : ∀ e ∈ arms.flatMap Arm.parts, e.Transparent d) : Work.Fits (.select v arms unmatched)

structure Trial.Fits (t : Trial) : Prop where
  inert : t.value.inert (allows fs) = true
  arm : ∀ e ∈ t.arm.parts, e.Transparent d
  later : ∀ e ∈ t.later.flatMap Arm.parts, e.Transparent d

/-- Frames that transparent programs are resumed with when everything is there. -/
inductive Frame.Fits : Frame → Prop where
  | branch {onTrue onFalse : Expr} (t : onTrue.Transparent d) (f : onFalse.Transparent d) :
      Frame.Fits (.branch onTrue onFalse)
  | connectiveLeft {op : BinaryOp} {right : Expr} (op_eq : op = .and ∨ op = .or)
      (r : right.Transparent d) : Frame.Fits (.connectiveLeft op right)
  | connectiveRight (op : BinaryOp) : Frame.Fits (.connectiveRight op)
  | andThen {next : Work} (next_fits : next.Fits fs d) : Frame.Fits (.andThen next)
  | bindGuard {v : Value} {guards : List Expr} {next : Work} (inert : v.inert (allows fs) = true)
      (parts : ∀ e ∈ guards, e.Transparent d) (next_fits : next.Fits fs d) :
      Frame.Fits (.bindGuard v guards next)
  | armGuard {trial : Trial} {bindings : List (String × Value)} {guards : List Expr}
      (t : trial.Fits fs d) (inert : ∀ b ∈ bindings, b.2.inert (allows fs) = true)
      (parts : ∀ e ∈ guards, e.Transparent d) : Frame.Fits (.armGuard trial bindings guards)
  | alternative {trial : Trial} {bindings : List (String × Value)} {body : Expr}
      {others : List (Option Expr × Expr)} (t : trial.Fits fs d)
      (inert : ∀ b ∈ bindings, b.2.inert (allows fs) = true) (b : body.Transparent d)
      (parts : ∀ e ∈ others.flatMap alternativeParts, e.Transparent d) :
      Frame.Fits (.alternative trial bindings body others)
  | call {args : List Value} (location : Option Location)
      (inert : ∀ v ∈ args, v.inert (allows fs) = true) : Frame.Fits (.call args location)

end

variable {context : Context} {fs : Array Function} {d : Nat}

theorem Trial.Fits.next {t : Trial} (h : t.Fits fs d) : t.next.Fits fs d :=
  .select t.unmatched h.inert h.later

/-- The machine knows the functions that may occur, and the values in scope are inert. -/
structure Machine.Plain (fs : Array Function) (m : Machine) : Prop where
  knows : m.Knows fs
  inert : ∀ b ∈ m.rest.env.bindings, b.value.inert (allows fs) = true

namespace Machine.Plain

variable {m : Machine}

theorem openFrame (h : m.Plain fs) : (m.withEnv m.rest.env.openFrame).Plain fs := ⟨h.knows, h.inert⟩

theorem defineAll {bindings : List (String × Value)} (h : m.Plain fs)
    (hb : ∀ b ∈ bindings, b.2.inert (allows fs) = true) :
    (m.withEnv (m.rest.env.defineAll bindings)).Plain fs := by
  refine ⟨h.knows, fun b hmem => ?_⟩
  rw [Environment.defineAll_eq_grow] at hmem
  rcases List.mem_append.1 hmem with hmem | hmem
  · obtain ⟨b', hb', rfl⟩ := List.mem_map.1 (List.mem_reverse.1 hmem)
    exact hb b' hb'
  · exact h.inert b hmem

theorem bound {name : String} {v : Value} (h : m.Plain fs)
    (hv : m.rest.env.getUser? name = some v) : v.inert (allows fs) = true := by
  unfold Environment.getUser? at hv
  split at hv
  · rename_i b hb
    split at hv
    · cases hv
    · cases hv
      exact h.inert b (List.mem_of_find?_eq_some hb)
  · cases hv

end Machine.Plain

theorem addBindings_eq (bs : List Binding) (bindings : List (String × Value)) :
    addBindings bs bindings = (bindings.map fun b => ⟨b.1, b.2, false⟩).reverse ++ bs := by
  induction bindings generalizing bs with
  | nil => rfl
  | cons b rest ih =>
    rw [List.map_cons, List.reverse_cons, List.append_assoc]
    exact ih (⟨b.1, b.2, false⟩ :: bs)

theorem bindings_defineAll (env : Environment) (bindings : List (String × Value)) :
    (env.defineAll bindings).bindings = addBindings env.bindings bindings := by
  rw [Environment.defineAll_eq_grow, addBindings_eq]
  rfl

/-! ## The functions of the engine -/

/-- A run has ended with what a job computes, and nothing has changed but for new names. -/
structure Yields (context : Context) (fs : Array Function) (d : Nat) (m : Machine) (job : Job)
    (v : Value) (m' : Machine) : Prop where
  grown : ∃ more, m' = m.withEnv (m.rest.env.grow more) ∧ (job.isScoped = true → more = [])
  inert : v.inert (allows fs) = true
  computes : ∃ c, Computes context fs d m.rest.env.bindings job v c

/-- The engine computes what the rules say. -/
structure Faithful (context : Context) (fs : Array Function) (E : Engine) : Prop where
  context_eq : E.context = context
  eval : ∀ {d : Nat} {e : Expr} {m m' : Machine} {v : Value}, e.Transparent d → m.Plain fs →
    E.eval e.erase m = .ok v m' →
    m' = m ∧ v.inert (allows fs) = true ∧
      ∃ c, Computes context fs d m.rest.env.bindings (.eval e) v c
  proceed : ∀ {d : Nat} {w : Work} {m m' : Machine} {v : Value}, w.Fits fs d → m.Plain fs →
    E.proceed w.erase m = .ok v m' → Yields context fs d m (.proceed w) v m'
  resume : ∀ {d : Nat} {f : Frame} {x : Value} {m m' : Machine} {v : Value}, f.Fits fs d →
    x.inert (allows fs) = true → m.Plain fs → E.resume f.erase x m = .ok v m' →
    Yields context fs d m (.resume f x) v m'

namespace Yields

variable {m m' : Machine} {v : Value} {job job' : Job}

/-- What a job computes is computed by another one. -/
theorem of_rule (h : Yields context fs d m job v m')
    (hscoped : job'.isScoped = true → job.isScoped = true)
    (rule : ∀ c, Computes context fs d m.rest.env.bindings job v c →
      ∃ c', Computes context fs d m.rest.env.bindings job' v c') :
    Yields context fs d m job' v m' := by
  obtain ⟨more, hm, hs⟩ := h.grown
  obtain ⟨c, hc⟩ := h.computes
  exact ⟨⟨more, hm, fun hj => hs (hscoped hj)⟩, h.inert, rule c hc⟩

/-- A run that leaves no names behind. -/
theorem of_same {c : Nat} (hi : v.inert (allows fs) = true)
    (hc : Computes context fs d m.rest.env.bindings job v c) : Yields context fs d m job v m :=
  ⟨⟨[], rfl, fun _ => rfl⟩, hi, c, hc⟩

/-- A job with a scope of its own leaves no names behind. -/
theorem same (h : Yields context fs d m job v m') (hscoped : job.isScoped = true) :
    m' = m ∧ v.inert (allows fs) = true ∧ ∃ c, Computes context fs d m.rest.env.bindings job v c := by
  obtain ⟨more, rfl, hs⟩ := h.grown
  rw [hs hscoped]
  exact ⟨rfl, h.inert, h.computes⟩

/-- A job that runs in a frame of its own leaves nothing behind. -/
theorem close {x : EvalM Value} (hx : EvalM.inFrame x m = .ok v m')
    (h : ∀ m₁, x (m.withEnv m.rest.env.openFrame) = .ok v m₁ →
      Yields context fs d (m.withEnv m.rest.env.openFrame) job v m₁) :
    m' = m ∧ v.inert (allows fs) = true ∧ ∃ c, Computes context fs d m.rest.env.bindings job v c := by
  obtain ⟨m₁, hm₁, rfl⟩ := EvalM.ok_of_inFrame hx
  obtain ⟨⟨more, rfl, -⟩, hv, hc⟩ := h m₁ hm₁
  refine ⟨?_, hv, hc⟩
  rw [Machine.env_withEnv, Machine.withEnv_withEnv, Machine.withEnv_withEnv, Machine.env_withEnv,
    Environment.closeFrame_grow, Machine.withEnv_env]

end Yields

theorem Expr.Transparent.erase_ne_lambda {e : Expr} (h : e.Transparent d) (name : Option String)
    (params : List String) (body : Expr) : e.erase ≠ .lambda name params body := by
  induction h with
  | spawn b ih => exact ih
  | _ => intro h; cases h

theorem Engine.bindingValue_of_ne_lambda {E : Engine} {p : Pattern} {e : Expr}
    (h : ∀ name params body, e ≠ .lambda name params body) : E.bindingValue p e = E.eval e := by
  unfold Engine.bindingValue
  split
  · exact absurd rfl (h _ _ _)
  · rfl

theorem Value.any_isPromise_of_inert {allowed : FunctionId → Bool} {vs : List Value}
    (h : ∀ v ∈ vs, v.inert allowed = true) : vs.any Value.isPromise = false :=
  List.any_eq_false.2 fun x hx => by simp [Value.isPromise_of_inert (h x hx)]

/-- Keys that are there are gone on with at once. -/
theorem Engine.whenAllReady_of_inert {E : Engine} {allowed : FunctionId → Bool} {ks : List Value}
    (h : ∀ k ∈ ks, k.inert allowed = true) (f : Frame) (now : List Value → EvalM Value) :
    E.whenAllReady ks f now = now ks := by
  rw [Engine.whenAllReady, Value.any_isPromise_of_inert h]
  rfl

namespace Faithful

variable {E : Engine} (hE : Faithful context fs E) {m m' : Machine} {v : Value}
include hE

theorem items {es : List Expr} {vs : List Value} (hes : ∀ e ∈ es, e.Transparent d)
    (hm : m.Plain fs) (h : E.evalItems (es.map Expr.erase) m = .ok vs m') :
    m' = m ∧ (∀ v ∈ vs, v.inert (allows fs) = true) ∧
      ∃ c, Computes context fs d m.rest.env.bindings (.items es) (.tuple vs) c := by
  induction es generalizing vs m' with
  | nil =>
    cases h
    exact ⟨rfl, fun _ h => (by cases h), _, .nil⟩
  | cons e es ih =>
    rw [List.forall_mem_cons] at hes
    obtain ⟨v, m₁, hv, hrest⟩ := EvalM.ok_of_bind h
    obtain ⟨rfl, iv, c₁, hc₁⟩ := hE.eval hes.1 hm hv
    obtain ⟨ws, m₂, hws, hpure⟩ := EvalM.ok_of_bind hrest
    obtain ⟨rfl, iws, c₂, hc₂⟩ := ih hes.2 hws
    cases hpure
    exact ⟨rfl, List.forall_mem_cons.2 ⟨iv, iws⟩, _, .cons hc₁ hc₂⟩

theorem await {f : Frame} {x : Value} (hf : f.Fits fs d) (hx : x.inert (allows fs) = true)
    (hm : m.Plain fs) (h : E.whenReady x f.erase m = .ok v m') :
    Yields context fs d m (.await x f) v m' := by
  rw [Engine.whenReady_of_not_promise (Value.ne_promise_of_inert hx)] at h
  have hy := hE.resume hf hx hm h
  exact hy.of_rule (fun h => h) fun c hc => ⟨_, .await hc hy.inert⟩

/-- A strict operation on what is there is carried out at once. -/
theorem apply {op : Strict} {vs : List Value} (hop : op.isPrelude = true)
    (hvs : ∀ v ∈ vs, v.inert (allows fs) = true) (hm : m.Plain fs)
    (h : Strict.apply E op vs m = .ok v m') :
    m' = m ∧ v.inert (allows fs) = true ∧ op.Gives context fs vs v := by
  rw [Strict.apply, Value.any_isPromise_of_inert hvs, hE.context_eq] at h
  obtain ⟨hg, hi, rfl⟩ := Strict.gives_of_run hop hm.knows hvs h
  exact ⟨rfl, hi, hg⟩

theorem inArm {bindings : List (String × Value)} {e : Expr} (he : e.Transparent d)
    (hb : ∀ b ∈ bindings, b.2.inert (allows fs) = true) (hm : m.Plain fs)
    (h : E.evalInArm bindings e.erase m = .ok v m') :
    m' = m ∧ v.inert (allows fs) = true ∧
      ∃ c, Computes context fs d (addBindings m.rest.env.bindings bindings) (.eval e) v c := by
  obtain ⟨m₁, hm₁, rfl⟩ := EvalM.ok_of_inFrame h
  obtain ⟨_, m₂, h₂, hm₁⟩ := EvalM.ok_of_bind hm₁
  cases h₂
  obtain ⟨rfl, hv, c, hc⟩ := hE.eval he (hm.openFrame.defineAll hb) hm₁
  refine ⟨?_, hv, c, ?_⟩
  · change m.withEnv (m.rest.env.openFrame.defineAll bindings).closeFrame = m
    rw [Environment.defineAll_eq_grow, Environment.closeFrame_grow, Machine.withEnv_env]
  · change Computes context fs d (m.rest.env.openFrame.defineAll bindings).bindings _ v c at hc
    rw [bindings_defineAll] at hc
    exact hc

/-! ### Bindings -/

theorem checkGuards {x : Value} {guards : List Expr} {next : Work}
    (hx : x.inert (allows fs) = true) (hg : ∀ e ∈ guards, e.Transparent d) (hn : next.Fits fs d)
    (hm : m.Plain fs) (h : E.checkGuards x (guards.map Expr.erase) next.erase m = .ok v m') :
    Yields context fs d m (.guards x guards next) v m' := by
  cases guards with
  | nil => exact (hE.proceed hn hm h).of_rule (fun h => by cases h) fun c hc => ⟨c, .guardsNil hc⟩
  | cons guard rest =>
    rw [List.forall_mem_cons] at hg
    obtain ⟨y, m₁, hy, hrest⟩ := EvalM.ok_of_bind h
    obtain ⟨rfl, iy, c₁, hc₁⟩ := hE.eval hg.1 hm hy
    have ha := hE.await (.bindGuard hx hg.2 hn) iy hm hrest
    exact ha.of_rule (fun h => by cases h) fun c hc => ⟨_, .guardsCons hc₁ hc⟩

theorem bindWith {x : Value} {p : Pattern} {ks : List Value} {next : Work}
    (hx : x.inert (allows fs) = true) (hp : ∀ e ∈ p.parts, e.Transparent d) (hn : next.Fits fs d)
    (hm : m.Plain fs) (h : E.bindWith x p.erase ks next.erase m = .ok v m') :
    Yields context fs d m (.bindWith x p ks next) v m' := by
  have herase := Pattern.matching_erase m.sight p x ks
  cases hv : p.matching m.sight x ks with
  | error e =>
    rw [hv] at herase
    rw [Engine.bindWith_of_error herase] at h
    cases h
  | ok verdict =>
    rw [hv] at herase
    rcases Pattern.matching_of_inert (fun _ _ => hm.bound) hx hv with rfl | ⟨mt, rfl, hb, hg⟩
    · rw [Engine.bindWith_of_noMatch herase] at h
      exact absurd h EvalM.noMatch_ne_ok
    · rw [Engine.bindWith_of_matched herase] at h
      obtain ⟨⟨more, rfl, -⟩, hi, c, hc⟩ :=
        hE.checkGuards hx (fun g h => hp g (hg g h)) hn (hm.defineAll hb) h
      rw [Machine.env_withEnv, bindings_defineAll] at hc
      refine ⟨⟨more ++ (mt.bindings.map fun b => ⟨b.1, b.2, false⟩).reverse, ?_, fun h => by cases h⟩,
        hi, _, .bindWith m.store.outcome? hv hc hi⟩
      rw [Machine.withEnv_withEnv, Machine.env_withEnv, Environment.defineAll_eq_grow,
        Environment.grow_grow]

theorem bind {x : Value} {p : Pattern} {next : Work} (hx : x.inert (allows fs) = true)
    (hp : ∀ e ∈ p.parts, e.Transparent d) (hn : next.Fits fs d) (hm : m.Plain fs)
    (h : E.bind x p.erase next.erase m = .ok v m') : Yields context fs d m (.bind x p next) v m' := by
  obtain ⟨ks, m₁, hks, hready⟩ := EvalM.ok_of_bind h
  rw [Pattern.keys_erase] at hks
  obtain ⟨rfl, iks, c₁, hc₁⟩ := hE.items (fun e he => hp e (p.keys_subset_parts e he)) hm hks
  rw [Engine.whenAllReady_of_inert iks] at hready
  have hb := hE.bindWith hx hp hn hm hready
  exact hb.of_rule (fun h => by cases h) fun c hc => ⟨_, .bind hc₁ (.await (.bindKeys hc) hb.inert)⟩

theorem evalLet {bindings : List (Pattern × Expr)} {body : Expr}
    (hparts : ∀ e ∈ bindings.flatMap bindingParts, e.Transparent d) (hb : body.Transparent d)
    (hm : m.Plain fs) (h : E.evalLet (Expr.eraseBindings bindings) body.erase m = .ok v m') :
    Yields context fs d m (.letIn bindings body) v m' := by
  cases bindings with
  | nil =>
    obtain ⟨rfl, hi, c, hc⟩ := hE.eval hb hm h
    exact .of_same hi (.letNil hc)
  | cons b rest =>
    obtain ⟨p, e⟩ := b
    rw [List.flatMap_cons, List.forall_mem_append, bindingParts, List.forall_mem_cons] at hparts
    obtain ⟨⟨he, hp⟩, hrest⟩ := hparts
    obtain ⟨x, m₁, hx, hthen⟩ := EvalM.ok_of_bind h
    rw [Engine.bindingValue_of_ne_lambda he.erase_ne_lambda] at hx
    obtain ⟨rfl, ix, c₁, hc₁⟩ := hE.eval he hm hx
    have hbind := hE.bind ix hp (.letIn hrest hb) hm hthen
    exact hbind.of_rule (fun h => by cases h) fun c hc => ⟨_, .letCons hc₁ hc⟩

theorem evalBlock {steps : List Step} (hparts : ∀ e ∈ steps.flatMap Step.parts, e.Transparent d)
    (hm : m.Plain fs) (h : E.evalBlock (Expr.eraseSteps steps) m = .ok v m') :
    Yields context fs d m (.block steps) v m' := by
  cases steps with
  | nil =>
    cases h
    exact .of_same rfl .blockNil
  | cons step rest =>
    rw [List.flatMap_cons, List.forall_mem_append] at hparts
    obtain ⟨hstep, hrest⟩ := hparts
    cases step with
    | run e =>
      have he := hstep e (.head _)
      cases rest with
      | nil =>
        obtain ⟨rfl, hi, c, hc⟩ := hE.eval he hm h
        exact .of_same hi (.blockLast hc)
      | cons step rest =>
        obtain ⟨x, m₁, hx, hthen⟩ := EvalM.ok_of_bind h
        obtain ⟨rfl, ix, c₁, hc₁⟩ := hE.eval he hm hx
        have ha := hE.await (.andThen (.block hrest)) ix hm hthen
        exact ha.of_rule (fun h => by cases h) fun c hc => ⟨_, .blockRun hc₁ hc⟩
    | bind p e =>
      rw [Step.parts, bindingParts, List.forall_mem_cons] at hstep
      obtain ⟨he, hp⟩ := hstep
      cases rest with
      | nil =>
        obtain ⟨x, m₁, hx, hthen⟩ := EvalM.ok_of_bind h
        obtain ⟨rfl, ix, c₁, hc₁⟩ := hE.eval he hm hx
        have hb := hE.bind ix hp (.yield ix) hm hthen
        exact hb.of_rule (fun h => by cases h) fun c hc => ⟨_, .blockBindLast hc₁ hc⟩
      | cons step rest =>
        obtain ⟨x, m₁, hx, hthen⟩ := EvalM.ok_of_bind h
        obtain ⟨rfl, ix, c₁, hc₁⟩ := hE.eval he hm hx
        have hb := hE.bind ix hp (.block hrest) hm hthen
        exact hb.of_rule (fun h => by cases h) fun c hc => ⟨_, .blockBind hc₁ hc⟩

/-! ### Selections -/

theorem choose {trial : Trial} {bindings : List (String × Value)}
    {alternatives : List (Option Expr × Expr)} (ht : trial.Fits fs d)
    (hb : ∀ b ∈ bindings, b.2.inert (allows fs) = true)
    (ha : ∀ e ∈ alternatives.flatMap alternativeParts, e.Transparent d) (hm : m.Plain fs)
    (h : E.choose trial.erase bindings (Arm.eraseAlternatives alternatives) m = .ok v m') :
    Yields context fs d m (.choose trial bindings alternatives) v m' := by
  cases alternatives with
  | nil => exact (hE.proceed ht.next hm h).of_rule (fun _ => rfl) fun c hc => ⟨c, .chooseNil hc⟩
  | cons a others =>
    obtain ⟨guard, body⟩ := a
    rw [List.flatMap_cons, List.forall_mem_append] at ha
    cases guard with
    | none =>
      obtain ⟨rfl, hi, c, hc⟩ := hE.inArm (ha.1 body (.head _)) hb hm h
      exact .of_same hi (.chooseBody hc)
    | some guard =>
      obtain ⟨y, m₁, hy, hthen⟩ := EvalM.ok_of_bind h
      obtain ⟨rfl, iy, c₁, hc₁⟩ := hE.inArm (ha.1 guard (.head _)) hb hm hy
      have hf : Frame.Fits fs d (.alternative trial bindings body others) :=
        .alternative ht hb (ha.1 body (.tail _ (.head _))) ha.2
      exact (hE.await hf iy hm hthen).of_rule (fun _ => rfl) fun c hc => ⟨_, .chooseGuard hc₁ hc⟩

theorem checkArmGuards {trial : Trial} {bindings : List (String × Value)} {guards : List Expr}
    (ht : trial.Fits fs d) (hb : ∀ b ∈ bindings, b.2.inert (allows fs) = true)
    (hg : ∀ e ∈ guards, e.Transparent d) (hm : m.Plain fs)
    (h : E.checkArmGuards trial.erase bindings (guards.map Expr.erase) m = .ok v m') :
    Yields context fs d m (.armGuards trial bindings guards) v m' := by
  cases guards with
  | nil =>
    have hc : E.choose trial.erase bindings (Arm.eraseAlternatives trial.arm.alternatives) m =
        .ok v m' := by
      rw [← Arm.alternatives_erase]
      exact h
    have ha : ∀ e ∈ trial.arm.alternatives.flatMap alternativeParts, e.Transparent d :=
      fun e he => ht.arm e (List.mem_append_right _ he)
    exact (hE.choose ht hb ha hm hc).of_rule (fun _ => rfl) fun c hc => ⟨c, .armGuardsNil hc⟩
  | cons guard rest =>
    rw [List.forall_mem_cons] at hg
    obtain ⟨y, m₁, hy, hthen⟩ := EvalM.ok_of_bind h
    obtain ⟨rfl, iy, c₁, hc₁⟩ := hE.inArm hg.1 hb hm hy
    have ha := hE.await (.armGuard ht hb hg.2) iy hm hthen
    exact ha.of_rule (fun _ => rfl) fun c hc => ⟨_, .armGuardsCons hc₁ hc⟩

theorem tryArm {trial : Trial} {ks : List Value} (ht : trial.Fits fs d) (hm : m.Plain fs)
    (h : E.tryArm trial.erase ks m = .ok v m') : Yields context fs d m (.tryArm trial ks) v m' := by
  have hparts : ∀ e ∈ trial.arm.pattern.parts, e.Transparent d :=
    fun e he => ht.arm e (List.mem_append_left _ he)
  have herase := Pattern.matching_erase m.sight trial.arm.pattern trial.value ks
  rw [← Arm.pattern_erase] at herase
  cases hv : trial.arm.pattern.matching m.sight trial.value ks with
  | error e =>
    rw [hv] at herase
    rw [Engine.tryArm_of_error herase] at h
    cases h
  | ok verdict =>
    rw [hv] at herase
    rcases Pattern.matching_of_inert (fun _ _ => hm.bound) ht.inert hv with
      rfl | ⟨mt, rfl, hb, hg⟩
    · rw [Engine.tryArm_of_noMatch herase] at h
      have hn := hE.proceed ht.next hm h
      exact hn.of_rule (fun _ => rfl) fun c hc => ⟨c, .armMisses m.store.outcome? hv hc hn.inert⟩
    · rw [Engine.tryArm_of_matched herase] at h
      have hg := hE.checkArmGuards ht hb (fun g h => hparts g (hg g h)) hm h
      exact hg.of_rule (fun _ => rfl) fun c hc => ⟨c, .armMatches m.store.outcome? hv hc hg.inert⟩

theorem select {x : Value} {arms : List Arm} {unmatched : Unmatched}
    (hx : x.inert (allows fs) = true) (harms : ∀ e ∈ arms.flatMap Arm.parts, e.Transparent d)
    (hm : m.Plain fs) (h : E.select x (Expr.eraseArms arms) unmatched m = .ok v m') :
    Yields context fs d m (.select x arms unmatched) v m' := by
  cases arms with
  | nil =>
    cases unmatched with
    | noMatch => exact absurd h EvalM.noMatch_ne_ok
    | rethrow e => cases h
  | cons arm later =>
    rw [List.flatMap_cons, List.forall_mem_append] at harms
    have ht : Trial.Fits fs d ⟨x, arm, later, unmatched⟩ := ⟨hx, harms.1, harms.2⟩
    obtain ⟨ks, m₁, hks, hready⟩ := EvalM.ok_of_bind h
    rw [Arm.pattern_erase, Pattern.keys_erase] at hks
    have hkeys : ∀ e ∈ arm.pattern.keys, e.Transparent d :=
      fun e he => harms.1 e (List.mem_append_left _ (arm.pattern.keys_subset_parts e he))
    obtain ⟨rfl, iks, c₁, hc₁⟩ := hE.items hkeys hm hks
    rw [Engine.whenAllReady_of_inert iks] at hready
    have ha := hE.tryArm ht hm hready
    exact ha.of_rule (fun _ => rfl) fun c hc => ⟨_, .selectCons hc₁ (.await (.armKeys hc) ha.inert)⟩

/-! ### Calls -/

theorem callValue {f : Value} {args : List Value} {location : Option Location}
    (hf : f.inert (allows fs) = true) (hargs : ∀ x ∈ args, x.inert (allows fs) = true)
    (hm : m.Plain fs) (h : E.callValue f args location m = .ok v m') :
    Yields context fs d m (.resume (.call args location) f) v m' := by
  cases f with
  | function id =>
    have hid : allows fs id = true := hf
    obtain ⟨f, hfound, hpre⟩ : ∃ f, fs[id.index]? = some f ∧ f.isPrelude = true := by
      unfold allows at hid
      cases hfound : fs[id.index]? with
      | none => rw [hfound] at hid; cases hid
      | some f => exact ⟨f, rfl, by rw [hfound] at hid; exact hid⟩
    have hcall : E.invoke id f args location m = .ok v m' := by
      rwa [Engine.callValue_of_function ((hm.knows.current? hid).trans hfound)] at h
    have hlink := Function.module_of_isPrelude hpre
    unfold Function.isPrelude at hpre
    cases hbody : f.body with
    | code params body =>
      rw [hbody] at hpre
      cases hpre
    | native operation arity =>
      rw [hbody, hlink] at hpre
      have hop : (Strict.native operation).isPrelude = true := hpre
      have harity : f.arity = arity := by rw [Function.arity, hbody]
      unfold Engine.invoke at hcall
      simp only [hbody, harity] at hcall
      split at hcall
      · cases hcall
      · rename_i hcount
        obtain ⟨rfl, hi, hg⟩ := hE.apply hop hargs hm hcall
        exact .of_same hi (.callNative hfound hbody hlink hop (Classical.not_not.1 hcount) hg hi)
  | promise p => exact absurd rfl (Value.ne_promise_of_inert hf p)
  | _ => exact absurd h Engine.notCallable_ne_ok

/-! ### Expressions, work and frames -/

theorem strict {e : Expr} {op : Strict} {es : List Expr} (h₀ : e.operands? = some (op, es))
    (h₁ : e.erase.operands? = some (op, es.map Expr.erase)) (hes : ∀ e ∈ es, e.Transparent d)
    (hm : m.Plain fs) (h : E.evalKind e.erase m = .ok v m') :
    Yields context fs d m (.eval e) v m' := by
  rw [E.evalKind_of_operands? h₁] at h
  obtain ⟨vs, m₁, hvs, happly⟩ := EvalM.ok_of_bind h
  obtain ⟨rfl, ivs, c, hc⟩ := hE.items hes hm hvs
  obtain ⟨rfl, hi, hg⟩ := hE.apply (Expr.isPrelude_of_operands? h₀) ivs hm happly
  exact .of_same hi (.strict h₀ hc hg hi)

theorem connective {op : BinaryOp} {left right : Expr} (op_eq : op = .and ∨ op = .or)
    (hl : left.Transparent d) (hr : right.Transparent d) (hm : m.Plain fs)
    (h : (do
      let l ← E.eval left.erase
      E.whenReady l (.connectiveLeft op right.erase) : EvalM Value) m = .ok v m') :
    Yields context fs d m (.eval (.binary op left right)) v m' := by
  obtain ⟨x, m₁, hx, hthen⟩ := EvalM.ok_of_bind h
  obtain ⟨rfl, ix, c₁, hc₁⟩ := hE.eval hl hm hx
  have ha := hE.await (.connectiveLeft op_eq hr) ix hm hthen
  exact ha.of_rule (fun _ => rfl) fun c hc => ⟨_, .connective op_eq hc₁ hc⟩

theorem evalKind {e : Expr} (he : e.Transparent d) (hm : m.Plain fs)
    (h : E.evalKind e.erase m = .ok v m') : Yields context fs d m (.eval e) v m' := by
  induction he with
  | literal data =>
    cases h
    have hi : v.inert (allows fs) = true := Value.inert_of_isData data
    exact .of_same hi (.literal hi)
  | identifier name =>
    obtain ⟨env, m₁, h₁, hget⟩ := EvalM.ok_of_bind h
    cases h₁
    cases hb : m.rest.env.binding? name with
    | none =>
      simp only [Environment.get?, hb] at hget
      cases hget
    | some b =>
      simp only [Environment.get?, hb] at hget
      cases hget
      exact .of_same (hm.inert b (List.mem_of_find?_eq_some hb)) (.identifier hb)
  | @set d items parts ih =>
    have h₁ : (Expr.set items).erase.operands? = some (.set, items.map Expr.erase) := by
      rw [Expr.erase, Expr.eraseItems_eq]
      rfl
    exact hE.strict rfl h₁ parts hm h
  | @dict d entries parts ih =>
    have h₁ : (Expr.dict entries).erase.operands? =
        some (.dict, (Engine.flatten entries).map Expr.erase) := by
      rw [Expr.erase, ← Expr.flatten_eraseEntries]
      rfl
    exact hE.strict rfl h₁ parts hm h
  | binary op hl hr ihl ihr =>
    have hes := List.forall_mem_cons.2 ⟨hl, List.forall_mem_singleton.2 hr⟩
    cases op with
    | and => exact hE.connective (.inl rfl) hl hr hm h
    | or => exact hE.connective (.inr rfl) hl hr hm h
    | _ => exact hE.strict rfl rfl hes hm h
  | unary op ho ih => exact hE.strict rfl rfl (List.forall_mem_singleton.2 ho) hm h
  | branch hc ht hf =>
    obtain ⟨x, m₁, hx, hthen⟩ := EvalM.ok_of_bind h
    obtain ⟨rfl, ix, c₁, hc₁⟩ := hE.eval hc hm hx
    have ha := hE.await (.branch ht hf) ix hm hthen
    exact ha.of_rule (fun _ => rfl) fun c hc => ⟨_, .branch hc₁ hc⟩
  | letIn parts hb =>
    obtain ⟨rfl, hi, c, hc⟩ := Yields.close h fun m₁ h₁ => hE.evalLet parts hb hm.openFrame h₁
    exact .of_same hi (.evalLet hc)
  | block parts =>
    obtain ⟨rfl, hi, c, hc⟩ := Yields.close h fun m₁ h₁ => hE.evalBlock parts hm.openFrame h₁
    exact .of_same hi (.evalBlock hc)
  | select hs parts =>
    obtain ⟨x, m₁, hx, hthen⟩ := EvalM.ok_of_bind h
    obtain ⟨rfl, ix, c₁, hc₁⟩ := hE.eval hs hm hx
    have hsel := hE.select ix parts hm hthen
    exact hsel.of_rule (fun _ => rfl) fun c hc => ⟨_, .evalSelect hc₁ hc⟩
  | @call d callee args location hc parts =>
    obtain ⟨f, m₁, hf, hargs⟩ := EvalM.ok_of_bind h
    obtain ⟨rfl, hif, c₁, hc₁⟩ := hE.eval hc hm hf
    obtain ⟨vs, m₂, hvs, hthen⟩ := EvalM.ok_of_bind hargs
    rw [Expr.eraseItems_eq] at hvs
    obtain ⟨rfl, ivs, c₂, hc₂⟩ := hE.items parts hm hvs
    have hf : Frame.Fits fs d (.call vs location) := .call location ivs
    have ha := hE.await hf hif hm hthen
    exact ha.of_rule (fun _ => rfl) fun c hc => ⟨_, .call hc₁ hc₂ hc⟩
  | spawn hb ih =>
    obtain ⟨rfl, hi, c, hc⟩ := (ih h).same rfl
    exact .of_same hi (.spawn hc hi)

theorem proceedStep {w : Work} (hw : w.Fits fs d) (hm : m.Plain fs)
    (h : E.proceedStep w.erase m = .ok v m') : Yields context fs d m (.proceed w) v m' := by
  cases hw with
  | letIn parts hb =>
    exact (hE.evalLet parts hb hm h).of_rule (fun h => h) fun c hc => ⟨_, .proceedLet hc⟩
  | block parts =>
    exact (hE.evalBlock parts hm h).of_rule (fun h => h) fun c hc => ⟨_, .proceedBlock hc⟩
  | yield hi =>
    cases h
    exact .of_same hi (.proceedYield _)
  | select unmatched hi parts =>
    exact (hE.select hi parts hm h).of_rule (fun h => h) fun c hc => ⟨_, .proceedSelect hc⟩

omit hE in
/-- What the value of a guard leads to. -/
theorem guard {x : Value} {yes no : EvalM Value}
    (h : (do if ← EvalM.ofExcept (guardVerdict x) then yes else no : EvalM Value) m = .ok v m') :
    (x = .bool true ∧ yes m = .ok v m') ∨ (x = .bool false ∧ no m = .ok v m') := by
  cases x with
  | bool b =>
    cases b with
    | true => exact .inl ⟨rfl, h⟩
    | false => exact .inr ⟨rfl, h⟩
  | _ => cases h

theorem connectiveLeft {op : BinaryOp} {right : Expr} {x : Value} (op_eq : op = .and ∨ op = .or)
    (hr : right.Transparent d) (hm : m.Plain fs)
    (h : E.connectiveLeft op right.erase x m = .ok v m') :
    Yields context fs d m (.resume (.connectiveLeft op right) x) v m' := by
  cases x with
  | bool b =>
    have hright : ∀ {op : BinaryOp} {b : Bool}, (op = .and ∧ b = true ∨ op = .or ∧ b = false) →
        (do
          let r ← E.eval right.erase
          E.whenReady r (.connectiveRight op) : EvalM Value) m = .ok v m' →
        Yields context fs d m (.resume (.connectiveLeft op right) (.bool b)) v m' := by
      intro op b hundecided h
      obtain ⟨y, m₁, hy, hthen⟩ := EvalM.ok_of_bind h
      obtain ⟨rfl, iy, c₁, hc₁⟩ := hE.eval hr hm hy
      have hf : Frame.Fits fs d (.connectiveRight op) := .connectiveRight op
      have ha := hE.await hf iy hm hthen
      exact ha.of_rule (fun _ => rfl) fun c hc => ⟨_, .connectiveLeft hundecided hc₁ hc⟩
    rcases op_eq with rfl | rfl
    · cases b with
      | true => exact hright (.inl ⟨rfl, rfl⟩) h
      | false =>
        cases h
        exact .of_same rfl .andFalse
    · cases b with
      | true =>
        cases h
        exact .of_same rfl .orTrue
      | false => exact hright (.inr ⟨rfl, rfl⟩) h
  | _ => cases h

theorem resumeStep {f : Frame} {x : Value} (hf : f.Fits fs d) (hx : x.inert (allows fs) = true)
    (hm : m.Plain fs) (h : E.resumeStep f.erase x m = .ok v m') :
    Yields context fs d m (.resume f x) v m' := by
  cases hf with
  | branch ht hf =>
    cases x with
    | bool b =>
      cases b with
      | true =>
        obtain ⟨rfl, hi, c, hc⟩ := hE.eval ht hm h
        exact .of_same hi (.branchTrue hc)
      | false =>
        obtain ⟨rfl, hi, c, hc⟩ := hE.eval hf hm h
        exact .of_same hi (.branchFalse hc)
    | _ => cases h
  | connectiveLeft op_eq hr => exact hE.connectiveLeft op_eq hr hm h
  | connectiveRight op =>
    cases x with
    | bool b =>
      cases h
      exact .of_same rfl .connectiveRight
    | _ => cases h
  | andThen hn =>
    exact (hE.proceed hn hm h).of_rule (fun h => by cases h) fun c hc => ⟨_, .andThen hc⟩
  | bindGuard hv hg hn =>
    rcases guard h with ⟨rfl, h⟩ | ⟨rfl, h⟩
    · exact (hE.checkGuards hv hg hn hm h).of_rule (fun h => h) fun c hc => ⟨_, .bindGuard hc⟩
    · exact absurd h EvalM.noMatch_ne_ok
  | armGuard ht hb hg =>
    rcases guard h with ⟨rfl, h⟩ | ⟨rfl, h⟩
    · exact (hE.checkArmGuards ht hb hg hm h).of_rule (fun _ => rfl)
        fun c hc => ⟨_, .armGuardTrue hc⟩
    · exact (hE.proceed ht.next hm h).of_rule (fun _ => rfl) fun c hc => ⟨_, .armGuardFalse hc⟩
  | alternative ht hb hbody ho =>
    rcases guard h with ⟨rfl, h⟩ | ⟨rfl, h⟩
    · obtain ⟨rfl, hi, c, hc⟩ := hE.inArm hbody hb hm h
      exact .of_same hi (.alternativeTrue hc)
    · exact (hE.choose ht hb ho hm h).of_rule (fun _ => rfl) fun c hc => ⟨_, .alternativeFalse hc⟩
  | call location hargs => exact hE.callValue hx hargs hm h

/-- One more level of an engine that computes what the rules say does so too. -/
theorem step : Faithful context fs E.step where
  context_eq := hE.context_eq
  eval he hm h := (hE.evalKind he hm (Engine.evalKind_of_evalStep h)).same rfl
  proceed hw hm h := hE.proceedStep hw hm h
  resume hf hx hm h := hE.resumeStep hf hx hm h

end Faithful

/-- The engine computes what the rules say, with any amount of fuel. -/
theorem faithful_engine (context : Context) (fs : Array Function) (n : Nat) :
    Faithful context fs (engine context n) := by
  induction n with
  | zero =>
    refine ⟨rfl, ?_, ?_, ?_⟩
    · intro d e m m' v _ _ h
      cases h
    · intro d w m m' v _ _ h
      cases h
    · intro d f x m m' v _ _ _ h
      cases h
  | succ n ih =>
    rw [engine_succ]
    exact ih.step

end Deferral
