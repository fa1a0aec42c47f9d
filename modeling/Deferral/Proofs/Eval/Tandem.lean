import Deferral.Proofs.Eval.Bond

/-!
# Engines in tandem

Two engines are in `Tandem` if what they run stays together: expressions, work and frames made of code
that may be run, and the two operations that put something down for later. From that it follows for
each construct of the language, one lemma each, and for one more level of evaluation as a whole
(`Tandem.evalKind`, `Tandem.proceedStep`, `Tandem.resumeStep`). Only starting tasks is left open.

What is put down for later is `Fine` if it consists of such code, environments and errors.
-/

set_option autoImplicit false

namespace Deferral

/-! ## What is put down for later -/

section

variable (K : Terms)

/-- The error that may be the outcome of a selection is one there is. -/
def Unmatched.Fine : Unmatched → Prop
  | .noMatch => True
  | .rethrow e => K.Failure e

def Work.Fine : Work → Prop
  | .letIn bindings body => (∀ e ∈ bindings.flatMap bindingParts, K.Code e) ∧ K.Code body
  | .block steps => ∀ e ∈ steps.flatMap Step.parts, K.Code e
  | .yield _ => True
  | .select _ arms unmatched => (∀ e ∈ arms.flatMap Arm.parts, K.Code e) ∧ unmatched.Fine K

def Trial.Fine (trial : Trial) : Prop := (∀ e ∈ trial.arm.parts, K.Code e) ∧ trial.next.Fine K

def Frame.Fine : Frame → Prop
  | .branch onTrue onFalse => K.Code onTrue ∧ K.Code onFalse
  | .connectiveLeft _ right => K.Code right
  | .andThen next => next.Fine K
  | .bindKeys _ pattern next => (∀ e ∈ pattern.parts, K.Code e) ∧ next.Fine K
  | .bindRetry _ pattern _ next => (∀ e ∈ pattern.parts, K.Code e) ∧ next.Fine K
  | .bindGuard _ guards next => (∀ e ∈ guards, K.Code e) ∧ next.Fine K
  | .armKeys trial => trial.Fine K
  | .armRetry trial _ => trial.Fine K
  | .armGuard trial _ guards => trial.Fine K ∧ ∀ e ∈ guards, K.Code e
  | .alternative trial _ body others =>
    trial.Fine K ∧ K.Code body ∧ ∀ e ∈ others.flatMap alternativeParts, K.Code e
  | .spawn => K.Spawns
  | _ => True

def Handler.Fine : Handler → Prop
  | .resume frame env => frame.Fine K ∧ K.Scope env
  | .recover arms env => (∀ e ∈ arms.flatMap Arm.parts, K.Code e) ∧ K.Scope env
  | .apply _ env => K.Scope env
  | .applyEither _ env => K.Scope env
  | _ => True

end

/-- A call gets an environment to run in, or is refused with an error that there is. -/
def Bond.Enters (B : Bond) : Except Error Environment → Prop
  | .ok env => B.Scope env
  | .error e => B.Failure e

/-- Two engines run the same code together. -/
structure Tandem (B : Bond) (E E' : Engine) : Prop where
  lawful : B.Lawful
  context : E'.context = E.context
  /-- What the host's operations fail with. -/
  host : ∀ name args e, (E.context.host name args).answer = .error e → B.Failure e
  enters : ∀ id f args location caller, B.Scope caller →
    B.Enters (bodyEnvironment E.context.maxCallDepth id f args location caller)
  eval : ∀ e, B.Code e → B.Together (E.eval e) (E'.eval e)
  proceed : ∀ w : Work, w.Fine B.toTerms → B.Together (E.proceed w) (E'.proceed w)
  resume : ∀ (frame : Frame) v, frame.Fine B.toTerms → B.Together (E.resume frame v) (E'.resume frame v)
  derive : ∀ p (h : Handler), h.Fine B.toTerms →
    B.Together (Promise.derive E.deliver p h) (Promise.derive E'.deliver p h)
  all : ∀ vs : List Value, vs.any Value.isPromise = true →
    B.Together (Promise.all E.deliver vs) (Promise.all E'.deliver vs)

namespace Tandem

open Bond

variable {B : Bond} {E E' : Engine} (T : Tandem B E E')
include T

/-! ## Calls and operations -/

theorem native (operation : Native) (vs : List Value) :
    B.Together (operation.run E.context.host vs) (operation.run E.context.host vs) := by
  have hplain : ∀ {e : Error}, e.isPlain = true →
      B.Together (EvalM.fail e : EvalM Value) (EvalM.fail e) := fun he => .fail (T.lawful.plain he)
  have hanswer : ∀ answer : Answer, (∀ e, answer = .error e → B.Failure e) →
      B.Together (Native.answer answer) (Native.answer answer) := by
    intro answer hfailure
    cases answer with
    | value v => exact .pure v
    | error e => exact .fail (hfailure e rfl)
    | panic payload => exact .panic payload
  unfold Native.run
  split
  · exact .pure _
  · unfold Native.sizeOf
    split
    · exact .ofExcept (T.lawful.failure_of_plainly (Operator.plain_intResult _ _))
    · exact hplain rfl
  · exact .pure _
  · exact .bind (.gets fun _ _ _ h => by rw [T.lawful.directory h]) fun _ => .pure _
  · rename_i name
    refine .bind (.logValues T.lawful _) fun _ => ?_
    dsimp only
    split
    · exact .bind (.interrupt T.lawful) fun _ => hanswer _ (T.host name vs)
    · exact hanswer _ (T.host name vs)
  · exact hplain rfl

theorem strict (operation : Strict) (vs : List Value) :
    B.Together (operation.run E.context vs) (operation.run E.context vs) := by
  unfold Strict.run
  split
  · exact .ofExcept (T.lawful.failure_of_plainly (BinaryOp.plain_compute _ _ _))
  · exact .fail (T.lawful.plain rfl)
  · exact .ofExcept (T.lawful.failure_of_plainly (UnaryOp.plain_compute _ _))
  · exact .fail (T.lawful.plain rfl)
  · exact .pure _
  · exact .pure _
  · exact native T _ _

/-- Puts a handler down with a promise, and hands on the promise for what will come of it. -/
theorem deferred (p : PromiseId) {h : Handler} (hh : h.Fine B.toTerms) :
    B.Together (do
        let q ← Promise.derive E.deliver p h
        return Value.promise q)
      (do
        let q ← Promise.derive E'.deliver p h
        return Value.promise q) :=
  .bind (T.derive p h hh) fun q => .pure (Value.promise q)

theorem apply (operation : Strict) (operands : List Value) :
    B.Together (Strict.apply E operation operands) (Strict.apply E' operation operands) := by
  unfold Strict.apply
  split
  · rename_i hany
    exact .bind (T.all operands hany) fun p => deferred T p (h := .compute operation) trivial
  · rw [T.context]
    exact strict T operation operands

theorem evalItems : ∀ es : List Expr, (∀ e ∈ es, B.Code e) →
    B.Together (E.evalItems es) (E'.evalItems es)
  | [], _ => .pure []
  | e :: es, h => by
    obtain ⟨he, hes⟩ := List.forall_mem_cons.1 h
    exact .bind (T.eval e he) fun v => .bind (evalItems es hes) fun vs => .pure (v :: vs)

theorem whenReady (v : Value) (frame : Frame) (hframe : frame.Fine B.toTerms) :
    B.Together (E.whenReady v frame) (E'.whenReady v frame) := by
  cases v with
  | promise p =>
    exact .environment T.lawful fun env henv => deferred T p (h := .resume frame env) ⟨hframe, henv⟩
  | _ => exact T.resume frame _ hframe

theorem whenAllReady (vs : List Value) (frame : Frame) (hframe : frame.Fine B.toTerms)
    {now now' : List Value → EvalM Value} (hnow : ∀ vs, B.Together (now vs) (now' vs)) :
    B.Together (E.whenAllReady vs frame now) (E'.whenAllReady vs frame now') := by
  unfold Engine.whenAllReady
  split
  · rename_i hany
    exact .bind (T.all vs hany) fun p => whenReady T (.promise p) frame hframe
  · exact hnow vs

theorem evalInArm (bindings : List (String × Value)) {e : Expr} (he : B.Code e) :
    B.Together (E.evalInArm bindings e) (E'.evalInArm bindings e) :=
  .inFrame T.lawful (.bind (.define T.lawful bindings) fun _ => T.eval e he)

theorem notCallable (v : Value) : B.Together (Engine.notCallable v) (Engine.notCallable v) :=
  .bind (.quoted T.lawful v) fun _ => .fail (T.lawful.plain rfl)

theorem invoke (id : FunctionId) {f : Function} (hf : B.Callable f) (args : List Value)
    (location : Option Location) : B.Together (E.invoke id f args location)
      (E'.invoke id f args location) := by
  unfold Engine.invoke
  rw [T.context]
  split
  · exact .fail (T.lawful.plain rfl)
  · split
    · exact apply T _ args
    · rename_i params body hbody
      refine .environment T.lawful fun caller hcaller => ?_
      have henters := T.enters id f args location caller hcaller
      cases hr : bodyEnvironment E.context.maxCallDepth id f args location caller with
      | error e =>
        rw [hr] at henters
        exact .fail henters
      | ok env =>
        rw [hr] at henters
        exact .within T.lawful henters (.traced T.lawful henters (T.eval body (hf params body hbody)))

/-- Goes on with the function of an identity. -/
theorem function {f g : Option Function → EvalM Value} (id : FunctionId)
    (hf : ∀ found : Option Function, (∀ x, found = some x → B.Callable x) →
      B.Together (f found) (g found)) :
    B.Together (EvalM.gets (·.current? id) >>= f) (EvalM.gets (·.current? id) >>= g) :=
  .gets_bind (fun _ _ _ h => ⟨T.lawful.current? h id, fun _ hx => T.lawful.callable_of_current? h hx⟩) hf

theorem callValue (callee : Value) (args : List Value) (location : Option Location) :
    B.Together (E.callValue callee args location) (E'.callValue callee args location) := by
  unfold Engine.callValue
  split
  · rename_i id
    refine function T id fun found hfound => ?_
    cases found with
    | none => exact notCallable T _
    | some f => exact invoke T id (hfound f rfl) args location
  · exact notCallable T _

theorem callFunction (callee : Value) (args : List Value) :
    B.Together (E.callFunction callee args) (E'.callFunction callee args) :=
  whenReady T callee (.call args none) trivial

theorem spawn (hsubmit : ∀ id, B.Together (E.submit id) (E'.submit id)) (v : Value) :
    B.Together (E.spawn v) (E'.spawn v) := by
  unfold Engine.spawn
  split
  · rename_i id
    refine function T id fun found _ => ?_
    cases found with
    | none => exact .fail (T.lawful.plain rfl)
    | some f =>
      dsimp only
      split
      · exact hsubmit id
      · exact .fail (T.lawful.plain rfl)
  · exact .fail (T.lawful.plain rfl)

theorem closure (name : String) (params : List String) {body : Expr} (hbody : B.Code body) :
    B.Together (Deferral.closure name params body) (Deferral.closure name params body) := by
  refine .environment T.lawful fun env _ => .bind (.addFunction T.lawful ?_) fun _ => .pure _
  rintro params' body' h
  obtain ⟨rfl, rfl⟩ := FunctionBody.code.inj h
  exact hbody

/-! ## Modules -/

theorem addFunctions (captures : List Binding) (module : Option Module) :
    ∀ ds : List FunctionDecl, (∀ d ∈ ds, B.Code d.body) →
      B.Together (Deferral.addFunctions captures module ds) (Deferral.addFunctions captures module ds)
  | [], _ => .pure ()
  | d :: ds, h => by
    obtain ⟨hd, hds⟩ := List.forall_mem_cons.1 h
    refine .bind (.addFunction T.lawful ?_) fun _ => addFunctions captures module ds hds
    rintro params body hbody
    obtain ⟨-, rfl⟩ := FunctionBody.code.inj hbody
    exact hd

theorem evalModuleDecl (name : ModuleName) (exports : List String) {ds : List FunctionDecl}
    (hds : ∀ d ∈ ds, B.Code d.body) : B.Together (Deferral.evalModuleDecl name exports ds)
      (Deferral.evalModuleDecl name exports ds) :=
  .bind (.gets fun _ _ _ h => by rw [T.lawful.functions h]) fun _ =>
    .bind (.ofExcept (T.lawful.failure_of_plainly (Module.plain_declare _ _ _))) fun _ =>
      .environment T.lawful fun _ _ => .bind (addFunctions T _ _ ds hds) fun _ =>
        .bind (.registerModule T.lawful _) fun _ => .pure _

theorem evalModuleBuild (name : ModuleName) (exports : List String) {ds : List FunctionDecl}
    (hds : ∀ d ∈ ds, B.Code d.body) : B.Together (Deferral.evalModuleBuild name exports ds)
      (Deferral.evalModuleBuild name exports ds) :=
  .bind (.gets fun _ _ _ h => by rw [T.lawful.functions h]) fun _ =>
    .bind (.ofExcept (T.lawful.failure_of_plainly (Module.plain_build _ _ _))) fun _ =>
      .environment T.lawful fun _ _ => .bind (addFunctions T _ _ ds hds) fun _ =>
        .bind (.registerModule T.lawful _) fun _ => .pure _

theorem evalModuleRef (name : ModuleName) :
    B.Together (Deferral.evalModuleRef name) (Deferral.evalModuleRef name) := by
  refine .bind (.gets fun _ _ _ h => by rw [T.lawful.modules h]) fun found => ?_
  cases found with
  | none => exact .fail (T.lawful.plain rfl)
  | some m => exact .pure _

theorem resolveIn (module : Value) (name : String) :
    B.Together (Deferral.resolveIn module name) (Deferral.resolveIn module name) := by
  unfold Deferral.resolveIn
  split
  · rename_i m
    refine .environment T.lawful fun env _ => .bind (.ofExcept ?_) fun _ => .pure _
    split
    · exact T.lawful.failure_of_plainly (m.plain_resolveInternal name)
    · exact T.lawful.failure_of_plainly (m.plain_resolve name)
  · exact .fail (T.lawful.plain rfl)

theorem raise (tag : String) (message : Value) :
    B.Together (Engine.raise tag message) (Engine.raise tag message) := by
  unfold Engine.raise
  split
  · exact .environment T.lawful fun _ henv => .fail (T.lawful.raised _ _ henv)
  · exact .fail (T.lawful.plain rfl)

/-! ## Bindings -/

/-- Goes on with the verdict of a match. -/
theorem matching {f g : Matching → EvalM Value} (p : Pattern) (v : Value) (keys : List Value)
    (hp : ∀ e ∈ p.parts, B.Code e) (hf : ∀ verdict : Matching,
      (∀ found, verdict = .matched found → ∀ e ∈ found.guards, B.Code e) →
      B.Together (f verdict) (g verdict)) :
    B.Together (do
        let verdict ← EvalM.gets fun m => p.matching m.sight v keys
        f (← EvalM.ofExcept verdict))
      (do
        let verdict ← EvalM.gets fun m => p.matching m.sight v keys
        g (← EvalM.ofExcept verdict)) := by
  refine .gets_bind (P := fun verdict => (∀ e, verdict = .error e → B.Failure e) ∧
      ∀ found, verdict = .ok (.matched found) → ∀ e ∈ found.guards, B.Code e) ?_ ?_
  · intro F m m' h
    refine ⟨by rw [T.lawful.sight h], fun e => T.lawful.failure_of_matching h, fun found hfound => ?_⟩
    rw [Pattern.guards_of_matched hfound]
    exact fun e he => hp e (p.guards_subset_parts e he)
  · rintro (e | verdict) ⟨hfailure, hguards⟩
    · exact .fail (hfailure e rfl)
    · exact hf verdict fun found hfound => hguards found (by rw [hfound])

theorem checkGuards (value : Value) {guards : List Expr} {next : Work}
    (hguards : ∀ e ∈ guards, B.Code e) (hnext : next.Fine B.toTerms) :
    B.Together (E.checkGuards value guards next) (E'.checkGuards value guards next) := by
  cases guards with
  | nil => exact T.proceed next hnext
  | cons guard rest =>
    obtain ⟨hguard, hrest⟩ := List.forall_mem_cons.1 hguards
    exact .bind (T.eval guard hguard) fun v =>
      whenReady T v (.bindGuard value rest next) ⟨hrest, hnext⟩

theorem bindWith (value : Value) {pattern : Pattern} (keys : List Value) {next : Work}
    (hpattern : ∀ e ∈ pattern.parts, B.Code e) (hnext : next.Fine B.toTerms) :
    B.Together (E.bindWith value pattern keys next) (E'.bindWith value pattern keys next) := by
  refine matching T pattern value keys hpattern fun verdict hguards => ?_
  cases verdict with
  | noMatch => exact .noMatch T.lawful value
  | pending p =>
    exact whenReady T (.promise p) (.bindRetry value pattern keys next) ⟨hpattern, hnext⟩
  | matched found =>
    exact .bind (.define T.lawful found.bindings) fun _ =>
      checkGuards T value (hguards found rfl) hnext

theorem bind (value : Value) {pattern : Pattern} (next : Work)
    (hpattern : ∀ e ∈ pattern.parts, B.Code e) (hnext : next.Fine B.toTerms) :
    B.Together (E.bind value pattern next) (E'.bind value pattern next) := by
  have hkeys : ∀ e ∈ pattern.keys, B.Code e := fun e he =>
    hpattern e (pattern.keys_subset_parts e he)
  exact .bind (evalItems T _ hkeys) fun keys =>
    whenAllReady T keys (.bindKeys value pattern next) ⟨hpattern, hnext⟩ fun keys =>
      bindWith T value keys hpattern hnext

theorem bindingValue (pattern : Pattern) {e : Expr} (he : B.Code e) :
    B.Together (E.bindingValue pattern e) (E'.bindingValue pattern e) := by
  unfold Engine.bindingValue
  split
  · rename_i body
    exact closure T _ _ (T.lawful.parts he body (.head _))
  · exact T.eval e he

theorem evalLet {bindings : List (Pattern × Expr)} {body : Expr}
    (hbindings : ∀ e ∈ bindings.flatMap bindingParts, B.Code e) (hbody : B.Code body) :
    B.Together (E.evalLet bindings body) (E'.evalLet bindings body) := by
  cases bindings with
  | nil => exact T.eval body hbody
  | cons b rest =>
    obtain ⟨pattern, e⟩ := b
    rw [List.flatMap_cons, List.forall_mem_append] at hbindings
    obtain ⟨hb, hrest⟩ := hbindings
    obtain ⟨he, hpattern⟩ := List.forall_mem_cons.1 hb
    exact .bind (bindingValue T pattern he) fun v =>
      bind T v (.letIn rest body) hpattern ⟨hrest, hbody⟩

theorem evalBlock {steps : List Step} (h : ∀ e ∈ steps.flatMap Step.parts, B.Code e) :
    B.Together (E.evalBlock steps) (E'.evalBlock steps) := by
  unfold Engine.evalBlock
  split
  · exact .pure _
  · rename_i e
    exact T.eval e (h e (by simp [Step.parts]))
  · rename_i e rest _
    rw [List.flatMap_cons, List.forall_mem_append] at h
    exact .bind (T.eval e (h.1 e (.head _))) fun v =>
      whenReady T v (.andThen (.block rest)) h.2
  · rename_i pattern e
    rw [List.flatMap_cons, List.forall_mem_append] at h
    obtain ⟨he, hpattern⟩ := List.forall_mem_cons.1 h.1
    exact .bind (T.eval e he) fun v => bind T v (.yield v) hpattern trivial
  · rename_i pattern e rest _
    rw [List.flatMap_cons, List.forall_mem_append] at h
    obtain ⟨he, hpattern⟩ := List.forall_mem_cons.1 h.1
    exact .bind (T.eval e he) fun v => bind T v (.block rest) hpattern h.2

/-! ## Selections -/

theorem choose {trial : Trial} (htrial : trial.Fine B.toTerms) (bindings : List (String × Value))
    {alternatives : List (Option Expr × Expr)}
    (h : ∀ e ∈ alternatives.flatMap alternativeParts, B.Code e) :
    B.Together (E.choose trial bindings alternatives) (E'.choose trial bindings alternatives) := by
  unfold Engine.choose
  split
  · exact T.proceed trial.next htrial.2
  · rename_i body others
    exact evalInArm T bindings (h body (by simp [alternativeParts]))
  · rename_i guard body others
    rw [List.flatMap_cons, List.forall_mem_append] at h
    obtain ⟨hthis, hothers⟩ := h
    exact .bind (evalInArm T bindings (hthis guard (.head _))) fun v =>
      whenReady T v (.alternative trial bindings body others)
        ⟨htrial, hthis body (.tail _ (.head _)), hothers⟩

theorem checkArmGuards {trial : Trial} (htrial : trial.Fine B.toTerms)
    (bindings : List (String × Value)) {guards : List Expr} (hguards : ∀ e ∈ guards, B.Code e) :
    B.Together (E.checkArmGuards trial bindings guards)
      (E'.checkArmGuards trial bindings guards) := by
  cases guards with
  | nil =>
    refine choose T htrial bindings fun e he => htrial.1 e ?_
    exact List.mem_append_right _ he
  | cons guard rest =>
    obtain ⟨hguard, hrest⟩ := List.forall_mem_cons.1 hguards
    exact .bind (evalInArm T bindings hguard) fun v =>
      whenReady T v (.armGuard trial bindings rest) ⟨htrial, hrest⟩

theorem tryArm {trial : Trial} (htrial : trial.Fine B.toTerms) (keys : List Value) :
    B.Together (E.tryArm trial keys) (E'.tryArm trial keys) := by
  have hpattern : ∀ e ∈ trial.arm.pattern.parts, B.Code e := fun e he =>
    htrial.1 e (List.mem_append_left _ he)
  refine matching T trial.arm.pattern trial.value keys hpattern fun verdict hguards => ?_
  cases verdict with
  | noMatch => exact T.proceed trial.next htrial.2
  | pending p => exact whenReady T (.promise p) (.armRetry trial keys) htrial
  | matched found => exact checkArmGuards T htrial found.bindings (hguards found rfl)

theorem select (value : Value) {arms : List Arm} (unmatched : Unmatched)
    (harms : ∀ e ∈ arms.flatMap Arm.parts, B.Code e) (hunmatched : unmatched.Fine B.toTerms) :
    B.Together (E.select value arms unmatched) (E'.select value arms unmatched) := by
  cases arms with
  | nil =>
    cases unmatched with
    | noMatch => exact .noMatch T.lawful value
    | rethrow e => exact .fail hunmatched
  | cons arm later =>
    rw [List.flatMap_cons, List.forall_mem_append] at harms
    obtain ⟨harm, hlater⟩ := harms
    have htrial : Trial.Fine B.toTerms ⟨value, arm, later, unmatched⟩ := ⟨harm, hlater, hunmatched⟩
    have hkeys : ∀ e ∈ arm.pattern.keys, B.Code e := fun e he =>
      harm e (List.mem_append_left _ (arm.pattern.keys_subset_parts e he))
    exact .bind (evalItems T _ hkeys) fun keys =>
      whenAllReady T keys (.armKeys _) htrial fun keys => tryArm T htrial keys

theorem recover {e : Error} (he : B.Failure e) {arms : List Arm}
    (harms : ∀ e ∈ arms.flatMap Arm.parts, B.Code e) :
    B.Together (E.recover e arms) (E'.recover e arms) :=
  .bind (.written fun _ _ _ h => by rw [T.lawful.directory h, T.lawful.env h]) fun triple =>
    select T triple (.rethrow e) harms he

theorem evalAttempt {body : Expr} {arms : List Arm} (hbody : B.Code body)
    (harms : ∀ e ∈ arms.flatMap Arm.parts, B.Code e) :
    B.Together (E.evalAttempt body arms) (E'.evalAttempt body arms) := by
  intro F m m' h
  have hr := Together.inFrame T.lawful (T.eval body hbody) F m m' h
  change B.Meets F (EStateM.bind (EvalM.outcome (EvalM.inFrame (E.eval body))) _ m)
    (EStateM.bind (EvalM.outcome (EvalM.inFrame (E'.eval body))) _ m')
  unfold EStateM.bind EvalM.outcome
  generalize EvalM.inFrame (E.eval body) m = r, EvalM.inFrame (E'.eval body) m' = r' at hr
  cases hr with
  | ok v h₁ =>
    cases v with
    | promise p =>
      exact Together.environment T.lawful (fun env henv =>
        deferred T p (h := .recover arms env) ⟨harms, henv⟩) F _ _ h₁
    | _ => exact .ok _ h₁
  | error e he h₁ =>
    cases e with
    | error e =>
      dsimp only
      split
      · exact recover T (he e rfl) harms F _ _ h₁
      · exact Together.fail (he e rfl) F _ _ h₁
    | panic payload => exact .error _ nofun h₁
    | outOfFuel => exact .error _ nofun h₁
  | @breach a ha m₁ m₁' h₁ =>
    -- no handler is tried for an interruption, which goes on as it is
    cases a with
    | error e => exact absurd rfl (T.lawful.uncaught ha e)
    | panic payload => exact .breach ha h₁
    | outOfFuel => exact .breach ha h₁

/-! ## One more level -/

/-- Evaluating an expression of any kind. -/
theorem evalKind {e : Expr} (he : B.Code e) : B.Together (E.evalKind e) (E'.evalKind e) := by
  have hparts := T.lawful.parts he
  cases e with
  | literal v => exact .pure v
  | identifier name =>
    refine .environment T.lawful fun env _ => ?_
    split
    · exact .pure _
    · exact .fail (T.lawful.plain rfl)
  | tuple items => exact .bind (evalItems T items hparts) fun _ => .pure _
  | sequence items => exact .bind (evalItems T items hparts) fun _ => .pure _
  | set items => exact .bind (evalItems T items hparts) fun vs => apply T .set vs
  | dict entries => exact .bind (evalItems T _ hparts) fun vs => apply T .dict vs
  | binary op left right =>
    have hleft := T.eval left (hparts left (.head _))
    have hright := hparts right (.tail _ (.head _))
    simp only [Engine.evalKind]
    split
    · exact .bind hleft fun l => whenReady T l (.connectiveLeft ..) hright
    · exact .bind hleft fun l => whenReady T l (.connectiveLeft ..) hright
    · exact .bind hleft fun l => .bind (T.eval right hright) fun r => apply T (.binary op) [l, r]
  | unary op operand =>
    exact .bind (T.eval operand (hparts operand (.head _))) fun v => apply T (.unary op) [v]
  | branch condition onTrue onFalse =>
    refine .bind (T.eval condition (hparts condition (.head _))) fun c => ?_
    exact whenReady T c (.branch onTrue onFalse)
      ⟨hparts onTrue (.tail _ (.head _)), hparts onFalse (.tail _ (.tail _ (.head _)))⟩
  | letIn bindings body =>
    obtain ⟨hbody, hbindings⟩ := List.forall_mem_cons.1 hparts
    exact .inFrame T.lawful (evalLet T hbindings hbody)
  | block steps => exact .inFrame T.lawful (evalBlock T hparts)
  | select scrutinee arms =>
    obtain ⟨hscrutinee, harms⟩ := List.forall_mem_cons.1 hparts
    exact .bind (T.eval scrutinee hscrutinee) fun v =>
      select T v .noMatch harms trivial
  | lambda name params body => exact closure T _ params (hparts body (.head _))
  | call callee args location =>
    obtain ⟨hcallee, hargs⟩ := List.forall_mem_cons.1 hparts
    exact .bind (T.eval callee hcallee) fun f => .bind (evalItems T args hargs) fun vs =>
      whenReady T f (.call vs location) trivial
  | moduleDecl name exports ds =>
    refine evalModuleDecl T name exports fun d hd => hparts d.body ?_
    exact List.mem_map_of_mem hd
  | moduleRef name => exact evalModuleRef T name
  | functionRef module name =>
    exact .bind (T.eval module (hparts module (.head _))) fun m =>
      whenReady T m (.functionRef name) trivial
  | spawn function =>
    exact .bind (T.eval function (hparts function (.head _))) fun f =>
      whenReady T f .spawn (T.lawful.spawns he)
  | raise tag message =>
    exact .bind (T.eval message (hparts message (.head _))) fun v =>
      whenReady T v (.raise tag) trivial
  | attempt body arms =>
    obtain ⟨hbody, harms⟩ := List.forall_mem_cons.1 hparts
    exact evalAttempt T hbody harms

theorem evalStep {e : Expr} (he : B.Code e) : B.Together (E.evalStep e) (E'.evalStep e) := by
  refine .bind (.gets fun _ _ _ h => by rw [T.lawful.interrupted h]) fun interrupted => ?_
  split
  · exact .fail (T.lawful.plain rfl)
  · exact evalKind T he

theorem proceedStep {w : Work} (hw : w.Fine B.toTerms) :
    B.Together (E.proceedStep w) (E'.proceedStep w) := by
  cases w with
  | letIn bindings body => exact evalLet T hw.1 hw.2
  | block steps => exact evalBlock T hw
  | yield v => exact .pure v
  | select value arms unmatched => exact select T value unmatched hw.1 hw.2

theorem connectiveLeft (op : BinaryOp) {right : Expr} (hright : B.Code right) (left : Value) :
    B.Together (E.connectiveLeft op right left) (E'.connectiveLeft op right left) := by
  unfold Engine.connectiveLeft
  split
  · exact .pure _
  · exact .pure _
  · exact .bind (T.eval right hright) fun r => whenReady T r (.connectiveRight op) trivial
  · exact .fail (T.lawful.plain rfl)

/-- Goes on with the verdict of a guard. -/
theorem verdict (v : Value) {f g : Bool → EvalM Value} (hf : ∀ b, B.Together (f b) (g b)) :
    B.Together (EvalM.ofExcept (guardVerdict v) >>= f) (EvalM.ofExcept (guardVerdict v) >>= g) :=
  .bind (.ofExcept (T.lawful.failure_of_plainly (plain_guardVerdict v))) hf

theorem resumeStep {frame : Frame} (hframe : frame.Fine B.toTerms) (v : Value)
    (hspawn : frame = .spawn → B.Together (E.spawn v) (E'.spawn v)) :
    B.Together (E.resumeStep frame v) (E'.resumeStep frame v) := by
  cases frame with
  | branch onTrue onFalse =>
    simp only [Engine.resumeStep]
    split
    · exact T.eval onTrue hframe.1
    · exact T.eval onFalse hframe.2
    · exact .fail (T.lawful.plain rfl)
  | connectiveLeft op right => exact connectiveLeft T op hframe v
  | connectiveRight op =>
    simp only [Engine.resumeStep]
    split
    · exact .pure _
    · exact .fail (T.lawful.plain rfl)
  | andThen next => exact T.proceed next hframe
  | bindKeys value pattern next => exact bindWith T value _ hframe.1 hframe.2
  | bindRetry value pattern keys next => exact bindWith T value keys hframe.1 hframe.2
  | bindGuard value guards next =>
    refine verdict T v fun holds => ?_
    split
    · exact checkGuards T value hframe.1 hframe.2
    · exact .noMatch T.lawful value
  | armKeys trial => exact tryArm T hframe _
  | armRetry trial keys => exact tryArm T hframe keys
  | armGuard trial bindings guards =>
    refine verdict T v fun holds => ?_
    split
    · exact checkArmGuards T hframe.1 bindings hframe.2
    · exact T.proceed trial.next hframe.1.2
  | alternative trial bindings body others =>
    obtain ⟨htrial, hbody, hothers⟩ := hframe
    refine verdict T v fun holds => ?_
    split
    · exact evalInArm T bindings hbody
    · exact choose T htrial bindings hothers
  | call args location => exact callValue T v args location
  | spawn => exact hspawn rfl
  | functionRef name => exact resolveIn T v name
  | raise tag => exact raise T tag v

end Tandem

/-! ## A wrapper around evaluations -/

/-- The engine with a wrapper around each evaluation of an expression. Tasks and continuations are run
without, unless the wrapper is to be everywhere. -/
def wrapped (wrap : EvalM Value → EvalM Value) (everywhere : Bool) (context : Context) : Nat → Engine
  | 0 => .exhausted context
  | n + 1 =>
    let E := wrapped wrap everywhere context n
    let apart := if everywhere then E else engine context n
    { context
      eval := fun e => wrap (E.evalStep e)
      proceed := E.proceedStep
      resume := fun frame v =>
        match frame with
        | .spawn => apart.spawn v
        | frame => E.resumeStep frame v
      deliver := apart.deliverStep }

theorem wrapped_context (wrap : EvalM Value → EvalM Value) (everywhere : Bool) (context : Context)
    (n : Nat) : (wrapped wrap everywhere context n).context = context := by
  cases n <;> rfl

/-- Tasks are no exception, if the wrapper is everywhere. -/
theorem wrapped_resume (wrap : EvalM Value → EvalM Value) (context : Context) (n : Nat) (frame : Frame)
    (v : Value) : (wrapped wrap true context (n + 1)).resume frame v =
      (wrapped wrap true context n).resumeStep frame v := by
  cases frame <;> rfl

theorem wrapped_deliver (wrap : EvalM Value → EvalM Value) (context : Context) (n : Nat) :
    (wrapped wrap false context n).deliver = (engine context n).deliver := by
  cases n <;> rfl

end Deferral
