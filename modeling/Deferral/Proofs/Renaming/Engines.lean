import Deferral.Proofs.Eval.Conduct
import Deferral.Proofs.Renaming.Runs

/-!
# Evaluation does not depend on identities

An engine is `Natural` if renamed parts of a program do in a larger machine what the parts do. Each
construct of the language is so if its parts are, one lemma for each, so every engine is natural
(`natural_engine`), provided that the operations of the host do not look at identities either
(`Context.Natural`).
-/

set_option autoImplicit false

namespace Deferral

/-! ## Hosts -/

def Answer.rename (r : Renaming) : Answer → Answer
  | .value v => .value (v.rename r)
  | .error e => .error (e.rename r)
  | .panic payload => .panic payload

/-- What a host operation does, with the identities renamed. -/
def Reply.rename (r : Renaming) (reply : Reply) : Reply :=
  ⟨reply.answer.rename r, reply.logged.map (Value.rename r), reply.interrupts⟩

/-- What a host does depends on identities only by passing them on. -/
structure Context.Natural (r : Renaming) (context : Context) : Prop where
  host : ∀ name args, context.host name (args.map (Value.rename r)) = (context.host name args).rename r
  executor : ∀ atOnce, context.executor = .deciding atOnce → ∀ p, atOnce (r.promise p) = atOnce p

/-- In a larger machine, the second engine does with renamed parts of programs what the first one does
with the parts. -/
structure Engine.Natural (r : Renaming) (X : Shadows) (E E' : Engine) : Prop where
  context : E.context.Natural r
  same : E'.context = E.context
  eval : ∀ e, Echoes r X (Value.rename r) (E.eval e) (E'.eval (e.rename r))
  proceed : ∀ w, Echoes r X (Value.rename r) (E.proceed w) (E'.proceed (w.rename r))
  resume : ∀ frame v,
    Echoes r X (Value.rename r) (E.resume frame v) (E'.resume (frame.rename r) (v.rename r))
  deliver : InLine r X E.deliver E'.deliver

variable {r : Renaming} {X : Shadows}

/-! ## What runs no part of a program -/

theorem Native.reply_echoes (reply : Reply) :
    Echoes r X (Value.rename r) (Native.reply reply) (Native.reply (reply.rename r)) := by
  obtain ⟨answered, logged, interrupts⟩ := reply
  have hanswer : Echoes r X (Value.rename r) (answer answered) (answer (answered.rename r)) := by
    cases answered with
    | value v => exact .pure v
    | error e => exact .fail e
    | panic payload => exact .throw (.panic payload)
  refine .bind (.logValues _ _) fun _ => ?_
  cases interrupts with
  | true => exact .bind .interrupt fun _ => hanswer
  | false => exact hanswer

theorem Native.mirrors {context : Context} (h : context.Natural r) (operation : Native)
    (args : List Value) :
    Echoes r X (Value.rename r) (operation.run context.host args)
      (operation.run context.host (args.map (Value.rename r))) := by
  have hrefused : Echoes r X (Value.rename r) (EvalM.fail (.typeError "native" args))
      (EvalM.fail (.typeError "native" (args.map (Value.rename r)))) := .fail _
  cases operation with
  | host name =>
    simp only [Native.run, h.host]
    exact Native.reply_echoes _
  | typeOf =>
    match args with
    | [v] =>
      simp only [List.map_cons, List.map_nil, Native.run, Value.typeTag, Value.typeName_rename]
      exact .pure (Value.symbol _)
    | [] => exact hrefused
    | _ :: _ :: _ => exact hrefused
  | len =>
    match args with
    | [v] =>
      simp only [List.map_cons, List.map_nil, Native.run, Native.sizeOf, Value.size?_rename]
      cases v.size? with
      | some n =>
        have hsize : Echoes r X (Value.rename r) (EvalM.ofExcept (Operator.intResult "len" n))
            (EvalM.ofExcept (Outcome.rename r (Operator.intResult "len" n))) := .ofExcept _
        rwa [Operator.rename_intResult] at hsize
      | none => exact .fail _
    | [] => exact hrefused
    | _ :: _ :: _ => exact hrefused
  | identity =>
    match args with
    | [v] => exact .pure v
    | [] => exact hrefused
    | _ :: _ :: _ => exact hrefused
  | display =>
    match args with
    | [v] =>
      refine .bind (f := id) (.gets fun _ _ h => h.plain v) fun text => ?_
      have htext := Echoes.pure (r := r) (X := X) (f := Value.rename r) (.ofText text)
      rwa [Value.rename_ofText] at htext
    | [] => exact hrefused
    | _ :: _ :: _ => exact hrefused

theorem Strict.mirrors {context : Context} (h : context.Natural r) (operation : Strict)
    (operands : List Value) :
    Echoes r X (Value.rename r) (operation.run context operands)
      (operation.run context (operands.map (Value.rename r))) := by
  cases operation with
  | binary op =>
    match operands with
    | [a, b] =>
      simp only [Strict.run, List.map_cons, List.map_nil, BinaryOp.compute_rename]
      exact .ofExcept _
    | [] => exact .fail _
    | [_] => exact .fail _
    | _ :: _ :: _ :: _ => exact .fail _
  | unary op =>
    match operands with
    | [v] =>
      simp only [Strict.run, List.map_cons, List.map_nil, UnaryOp.compute_rename]
      exact .ofExcept _
    | [] => exact .fail _
    | _ :: _ :: _ => exact .fail _
  | set =>
    simp only [Strict.run, ← Value.rename_setOf]
    exact .pure _
  | dict =>
    simp only [Strict.run, Value.pairUp_rename, ← Value.rename_dictOf]
    exact .pure _
  | native operation => exact Native.mirrors h operation operands

/-- New functions have the same names on both sides. -/
theorem Machine.Embeds.numbered {m m' : Machine} (h : m.Embeds r X m') (ds : List FunctionDecl) :
    Deferral.numbered m'.rest.functions.size (Expr.renameFunctions r ds) =
      (Deferral.numbered m.rest.functions.size ds).map fun g => (g.1, r.function g.2) := by
  have hnext : ∀ (ds : List FunctionDecl) (k : Nat),
      Deferral.numbered (m'.rest.functions.size + k) (Expr.renameFunctions r ds) =
        (Deferral.numbered (m.rest.functions.size + k) ds).map fun g => (g.1, r.function g.2) := by
    intro ds
    induction ds with
    | nil => exact fun _ => rfl
    | cons d ds ih =>
      intro k
      cases d
      simp only [Expr.renameFunctions, FunctionDecl.rename, Deferral.numbered, List.map_cons,
        Nat.add_assoc, ih, h.nextFunction]
      rfl
  exact hnext ds 0

namespace Echoes

theorem notCallable (v : Value) :
    Echoes r X (Value.rename r) (Engine.notCallable v) (Engine.notCallable (v.rename r)) :=
  .bind (.quoted v) fun _ => .fail _

theorem evalIdentifier (name : String) :
    Echoes r X (Value.rename r) (Engine.evalIdentifier name) (Engine.evalIdentifier name) := by
  refine .bind .environment fun env => ?_
  rw [Environment.get?_rename]
  cases env.get? name with
  | none => exact .fail _
  | some v => exact .pure v

theorem closure (name : String) (params : List String) (body : Expr) :
    Echoes r X (Value.rename r) (Deferral.closure name params body)
      (Deferral.closure name params (body.rename r)) :=
  .bind .environment fun env => .bind (.addFunction ⟨name, .code params body, env.bindings, none⟩)
    fun id => .pure (Value.function id)

theorem addFunctions (captures : List Binding) (module : Option Module) :
    ∀ ds, Echoes r X id (Deferral.addFunctions captures module ds)
      (Deferral.addFunctions (captures.map (Binding.rename r)) (module.map (Module.rename r))
        (Expr.renameFunctions r ds))
  | [] => .pure ()
  | .mk name params body :: ds =>
    .bind (.addFunction ⟨name, .code params body, captures, module⟩)
      fun _ => addFunctions captures module ds

theorem evalModuleDecl (name : ModuleName) (exports : List String) (ds : List FunctionDecl) :
    Echoes r X (Value.rename r) (Deferral.evalModuleDecl name exports ds)
      (Deferral.evalModuleDecl name exports (Expr.renameFunctions r ds)) := by
  have hmake : ∀ functions, Echoes r X (Value.rename r)
      (do
        let m ← EvalM.ofExcept (Module.declare name exports functions)
        let env ← EvalM.environment
        Deferral.addFunctions env.bindings (some m) ds
        Deferral.registerModule m
        return .module m)
      (do
        let m ← EvalM.ofExcept
          (Module.declare name exports (functions.map fun g => (g.1, r.function g.2)))
        let env ← EvalM.environment
        Deferral.addFunctions env.bindings (some m) (Expr.renameFunctions r ds)
        Deferral.registerModule m
        return .module m) := by
    intro functions
    rw [Module.declare_rename]
    exact .bind (.ofExcept _) fun m => .bind .environment fun env =>
      .bind (addFunctions env.bindings (some m) ds) fun _ => .bind (.registerModule m) fun _ =>
        .pure (Value.module m)
  intro m m' h
  have hrun := hmake (Deferral.numbered m.rest.functions.size ds) m m' h
  rw [← h.numbered] at hrun
  exact hrun

theorem evalModuleRef (name : ModuleName) :
    Echoes r X (Value.rename r) (Deferral.evalModuleRef name) (Deferral.evalModuleRef name) := by
  refine .bind (f := Option.map (Module.rename r)) (.gets fun _ _ h => ?_) fun m => ?_
  · rw [h.modules, Registry.get?_rename]
  · cases m with
    | none => exact .fail _
    | some m => exact .pure (Value.module m)

theorem resolveIn (module : Value) (name : String) :
    Echoes r X (Value.rename r) (Deferral.resolveIn module name)
      (Deferral.resolveIn (module.rename r) name) := by
  cases module with
  | module m =>
    refine .bind .environment fun env => ?_
    simp only [Environment.module_rename, Module.name_rename, Module.resolve_rename,
      Module.resolveInternal_rename]
    split <;> exact .bind (.ofExcept _) fun id => .pure (Value.function id)
  | _ => exact .fail _

theorem raise (tag : String) (message : Value) :
    Echoes r X (Value.rename r) (Engine.raise tag message)
      (Engine.raise tag (message.rename r)) := by
  unfold Engine.raise
  rw [Value.text?_rename]
  cases message.text? with
  | none => exact .fail _
  | some text => exact .bind .environment fun env => .fail (.raised tag text env.calls)

/-- What matching a pattern comes to is the same on both sides. -/
theorem matching (pattern : Pattern) (value : Value) (keys : List Value) :
    Echoes r X (renameResult r (Matching.rename r))
      (EvalM.gets fun m => pattern.matching m.sight value keys)
      (EvalM.gets fun m =>
        (pattern.rename r).matching m.sight (value.rename r) (keys.map (Value.rename r))) :=
  .gets fun _ _ hm => Pattern.matching_rename hm.sight pattern value keys

/-- A guard is a truth value on both sides, or on none. -/
theorem guardVerdict (v : Value) :
    Echoes r X id (EvalM.ofExcept (Deferral.guardVerdict v))
      (EvalM.ofExcept (Deferral.guardVerdict (v.rename r))) := by
  cases v with
  | bool b => exact .pure b
  | _ => exact .fail _

end Echoes

namespace Engine.Natural

variable {E E' : Engine} (h : Natural r X E E')
include h

theorem mirrors (operation : Strict) (operands : List Value) :
    Echoes r X (Value.rename r) (operation.run E.context operands)
      (operation.run E'.context (operands.map (Value.rename r))) := by
  rw [h.same]
  exact Strict.mirrors h.context operation operands

theorem apply (operation : Strict) (operands : List Value) :
    Echoes r X (Value.rename r) (Strict.apply E operation operands)
      (Strict.apply E' operation (operands.map (Value.rename r))) := by
  unfold Strict.apply
  rw [Value.any_isPromise_rename]
  split
  · exact .bind (h.deliver.all operands) fun p => .bind (h.deliver.derive p (.compute operation))
      fun q => .pure (Value.promise q)
  · exact h.mirrors operation operands

theorem evalItems : ∀ es,
    Echoes r X (List.map (Value.rename r)) (E.evalItems es) (E'.evalItems (es.map (Expr.rename r)))
  | [] => .pure []
  | e :: es => .bind (h.eval e) fun v => .bind (evalItems es) fun vs => .pure (v :: vs)

theorem evalInArm (bindings : List (String × Value)) (e : Expr) :
    Echoes r X (Value.rename r) (E.evalInArm bindings e)
      (E'.evalInArm (renameBindings r bindings) (e.rename r)) :=
  .inFrame (.bind (.define bindings) fun _ => h.eval e)

theorem invoke (id : FunctionId) (f : Function) (args : List Value) (location : Option Location) :
    Echoes r X (Value.rename r) (E.invoke id f args location)
      (E'.invoke (r.function id) (f.rename r) (args.map (Value.rename r)) location) := by
  unfold Engine.invoke
  rw [Function.arity_rename, Function.qualifiedName_rename, List.length_map]
  split
  · exact .fail _
  · cases hf : f.body with
    | native operation arity =>
      have hbody : (f.rename r).body = .native operation arity := by
        rw [Function.rename, hf]
        rfl
      simp only [hbody]
      exact h.apply _ _
    | code params body =>
      have hbody : (f.rename r).body = .code params (body.rename r) := by
        rw [Function.rename, hf]
        rfl
      simp only [hbody]
      refine .bind .environment fun caller => ?_
      rw [bodyEnvironment_rename, h.same]
      exact .bind (.ofExcept _) fun env => .within (.traced env.calls (h.eval body))

/-- Goes on with a function, if there is one. -/
theorem callValue (callee : Value) (args : List Value) (location : Option Location) :
    Echoes r X (Value.rename r) (E.callValue callee args location)
      (E'.callValue (callee.rename r) (args.map (Value.rename r)) location) := by
  cases callee with
  | function id =>
    refine .bind (f := Option.map (Function.rename r)) (.gets fun _ _ hm => hm.current? id)
      fun f => ?_
    cases f with
    | none => exact .notCallable (.function id)
    | some f => exact h.invoke id f args location
  | _ => exact .notCallable _

theorem runTask (task : Task) :
    Echoes r X id (E.runTask task) (E'.runTask (task.rename r)) :=
  .bind (.contained (.within (h.callValue (.function task.function) [] none)))
    fun o => h.deliver.fulfil task.target o

theorem submit (callee : FunctionId) :
    Echoes r X (Value.rename r) (E.submit callee) (E'.submit (r.function callee)) := by
  rw [Engine.submit, Engine.submit, h.same]
  refine .bind .environment fun caller => .bind .new fun target => ?_
  let task : Task := ⟨callee, caller, target⟩
  have hgo : ∀ {x y : EvalM Unit}, Echoes r X id x y →
      Echoes r X (Value.rename r) (x >>= fun _ => pure (.promise target))
        (y >>= fun _ => pure (.promise (r.promise target))) := fun hxy =>
    .bind hxy fun _ => .pure (Value.promise target)
  cases hexecutor : E.context.executor with
  | immediate => exact hgo (h.runTask task)
  | queued => exact hgo (.enqueue task)
  | refusing => exact hgo (h.deliver.fulfil target _)
  | deciding atOnce =>
    dsimp only
    rw [h.context.executor atOnce hexecutor]
    split
    · exact hgo (h.runTask task)
    · exact hgo (.enqueue task)

theorem spawn (v : Value) :
    Echoes r X (Value.rename r) (E.spawn v) (E'.spawn (v.rename r)) := by
  cases v with
  | function id =>
    refine .bind (f := Option.map (Function.rename r)) (.gets fun _ _ hm => hm.current? id)
      fun f => ?_
    cases f with
    | none => exact .fail _
    | some f =>
      simp only [Option.map_some, Function.arity_rename, Function.qualifiedName_rename]
      split
      · exact h.submit id
      · exact .fail _
  | _ => exact .fail _

/-! ### Work that waits -/

theorem whenReady (v : Value) (frame : Frame) :
    Echoes r X (Value.rename r) (E.whenReady v frame)
      (E'.whenReady (v.rename r) (frame.rename r)) := by
  cases v with
  | promise p =>
    exact .bind .environment fun env => .bind (h.deliver.derive p (.resume frame env))
      fun q => .pure (Value.promise q)
  | _ => exact h.resume frame _

theorem whenAllReady (vs : List Value) (frame : Frame) {now now' : List Value → EvalM Value}
    (hnow : ∀ vs, Echoes r X (Value.rename r) (now vs) (now' (vs.map (Value.rename r)))) :
    Echoes r X (Value.rename r) (E.whenAllReady vs frame now)
      (E'.whenAllReady (vs.map (Value.rename r)) (frame.rename r) now') := by
  unfold Engine.whenAllReady
  rw [Value.any_isPromise_rename]
  split
  · exact .bind (h.deliver.all vs) fun p => h.whenReady (.promise p) frame
  · exact hnow vs

theorem checkGuards (value : Value) (guards : List Expr) (next : Work) :
    Echoes r X (Value.rename r) (E.checkGuards value guards next)
      (E'.checkGuards (value.rename r) (guards.map (Expr.rename r)) (next.rename r)) := by
  cases guards with
  | nil => exact h.proceed next
  | cons guard rest =>
    exact .bind (h.eval guard) fun v => h.whenReady v (.bindGuard value rest next)

theorem bindWith (value : Value) (pattern : Pattern) (keys : List Value) (next : Work) :
    Echoes r X (Value.rename r) (E.bindWith value pattern keys next)
      (E'.bindWith (value.rename r) (pattern.rename r) (keys.map (Value.rename r))
        (next.rename r)) := by
  refine .bind (.matching pattern value keys) fun verdict => .bind (.ofExcept verdict) fun found => ?_
  cases found with
  | noMatch => exact .noMatch value
  | pending p => exact h.whenReady (.promise p) (.bindRetry value pattern keys next)
  | matched found =>
    exact .bind (.define found.bindings) fun _ => h.checkGuards value found.guards next

theorem bind (value : Value) (pattern : Pattern) (next : Work) :
    Echoes r X (Value.rename r) (E.bind value pattern next)
      (E'.bind (value.rename r) (pattern.rename r) (next.rename r)) := by
  unfold Engine.bind
  rw [Pattern.keys_rename]
  exact .bind (h.evalItems _) fun keys => h.whenAllReady keys (.bindKeys value pattern next)
    fun keys => h.bindWith value pattern keys next

theorem bindingValue (pattern : Pattern) (e : Expr) :
    Echoes r X (Value.rename r) (E.bindingValue pattern e)
      (E'.bindingValue (pattern.rename r) (e.rename r)) := by
  cases pattern with
  | bind name =>
    cases e with
    | lambda _ params body => exact .closure name params body
    | _ => exact h.eval _
  | _ => exact h.eval e

theorem evalLet (bindings : List (Pattern × Expr)) (body : Expr) :
    Echoes r X (Value.rename r) (E.evalLet bindings body)
      (E'.evalLet (Expr.renameBindings r bindings) (body.rename r)) := by
  cases bindings with
  | nil => exact h.eval body
  | cons b rest =>
    obtain ⟨pattern, e⟩ := b
    exact .bind (h.bindingValue pattern e) fun v => h.bind v pattern (.letIn rest body)

theorem evalBlock (steps : List Step) :
    Echoes r X (Value.rename r) (E.evalBlock steps) (E'.evalBlock (Expr.renameSteps r steps)) := by
  cases steps with
  | nil => exact .pure Value.unit
  | cons step rest =>
    cases step with
    | run e =>
      cases rest with
      | nil => exact h.eval e
      | cons next rest =>
        exact .bind (h.eval e) fun v => h.whenReady v (.andThen (.block (next :: rest)))
    | bind pattern e =>
      cases rest with
      | nil => exact .bind (h.eval e) fun v => h.bind v pattern (.yield v)
      | cons next rest =>
        exact .bind (h.eval e) fun v => h.bind v pattern (.block (next :: rest))

/-! ### Selections -/

theorem choose (trial : Trial) (bindings : List (String × Value))
    (alternatives : List (Option Expr × Expr)) :
    Echoes r X (Value.rename r) (E.choose trial bindings alternatives)
      (E'.choose (trial.rename r) (renameBindings r bindings)
        (Arm.renameAlternatives r alternatives)) := by
  cases alternatives with
  | nil => exact h.proceed trial.next
  | cons a others =>
    obtain ⟨guard, body⟩ := a
    cases guard with
    | none => exact h.evalInArm bindings body
    | some guard =>
      exact .bind (h.evalInArm bindings guard) fun v =>
        h.whenReady v (.alternative trial bindings body others)

theorem checkArmGuards (trial : Trial) (bindings : List (String × Value)) (guards : List Expr) :
    Echoes r X (Value.rename r) (E.checkArmGuards trial bindings guards)
      (E'.checkArmGuards (trial.rename r) (renameBindings r bindings)
        (guards.map (Expr.rename r))) := by
  cases guards with
  | nil =>
    have hchoose := h.choose trial bindings trial.arm.alternatives
    rwa [← Arm.alternatives_rename] at hchoose
  | cons guard rest =>
    exact .bind (h.evalInArm bindings guard) fun v => h.whenReady v (.armGuard trial bindings rest)

theorem tryArm (trial : Trial) (keys : List Value) :
    Echoes r X (Value.rename r) (E.tryArm trial keys)
      (E'.tryArm (trial.rename r) (keys.map (Value.rename r))) := by
  have hmatch := Echoes.matching (r := r) (X := X) trial.arm.pattern trial.value keys
  rw [← Arm.pattern_rename] at hmatch
  refine .bind hmatch fun verdict => .bind (.ofExcept verdict) fun found => ?_
  cases found with
  | noMatch => exact h.proceed trial.next
  | pending p => exact h.whenReady (.promise p) (.armRetry trial keys)
  | matched found => exact h.checkArmGuards trial found.bindings found.guards

theorem select (value : Value) (arms : List Arm) (unmatched : Unmatched) :
    Echoes r X (Value.rename r) (E.select value arms unmatched)
      (E'.select (value.rename r) (Expr.renameArms r arms) (unmatched.rename r)) := by
  cases arms with
  | nil =>
    cases unmatched with
    | noMatch => exact .noMatch value
    | rethrow e => exact .fail e
  | cons arm later =>
    let trial : Trial := ⟨value, arm, later, unmatched⟩
    simp only [Expr.renameArms, Engine.select, Arm.pattern_rename, Pattern.keys_rename]
    exact .bind (h.evalItems _) fun keys => h.whenAllReady keys (.armKeys trial) fun keys =>
      h.tryArm trial keys

theorem recover (e : Error) (arms : List Arm) :
    Echoes r X (Value.rename r) (E.recover e arms)
      (E'.recover (e.rename r) (Expr.renameArms r arms)) := by
  refine .bind (.written fun _ _ hm => ?_) fun triple => h.select triple arms (.rethrow e)
  rw [hm.env, Environment.calls_rename]
  exact hm.triple? _ e

theorem evalAttempt (body : Expr) (arms : List Arm) :
    Echoes r X (Value.rename r) (E.evalAttempt body arms)
      (E'.evalAttempt (body.rename r) (Expr.renameArms r arms)) := by
  refine .bind (.outcome (.inFrame (h.eval body))) fun outcome => ?_
  cases outcome with
  | error e =>
    simp only [renameResult, Error.catchable_rename]
    split
    · exact h.recover e arms
    · exact .fail e
  | ok v =>
    cases v with
    | promise p =>
      exact .bind .environment fun env => .bind (h.deliver.derive p (.recover arms env))
        fun q => .pure (Value.promise q)
    | _ => exact .pure _

/-! ### One more level -/

theorem evalKind (e : Expr) :
    Echoes r X (Value.rename r) (E.evalKind e) (E'.evalKind (e.rename r)) := by
  cases e with
  | literal v => exact .pure v
  | identifier name => exact .evalIdentifier name
  | tuple items =>
    simp only [Expr.rename, Expr.renameItems_eq, Engine.evalKind]
    refine .bind (h.evalItems items) fun vs => ?_
    rw [← Value.rename_tuple]
    exact .pure _
  | sequence items =>
    simp only [Expr.rename, Expr.renameItems_eq, Engine.evalKind]
    refine .bind (h.evalItems items) fun vs => ?_
    rw [← Value.rename_seqOf]
    exact .pure _
  | set items =>
    simp only [Expr.rename, Expr.renameItems_eq, Engine.evalKind]
    exact .bind (h.evalItems items) fun vs => h.apply .set vs
  | dict entries =>
    simp only [Expr.rename, Engine.evalKind, Expr.flatten_renameEntries]
    exact .bind (h.evalItems _) fun vs => h.apply .dict vs
  | binary op left right =>
    simp only [Expr.rename, Engine.evalKind]
    split
    · exact .bind (h.eval left) fun l => h.whenReady l (.connectiveLeft .and right)
    · exact .bind (h.eval left) fun l => h.whenReady l (.connectiveLeft .or right)
    · exact .bind (h.eval left) fun l => .bind (h.eval right) fun v => h.apply _ [l, v]
  | unary op operand => exact .bind (h.eval operand) fun v => h.apply _ [v]
  | branch condition onTrue onFalse =>
    exact .bind (h.eval condition) fun c => h.whenReady c (.branch onTrue onFalse)
  | letIn bindings body => exact .inFrame (h.evalLet bindings body)
  | block steps => exact .inFrame (h.evalBlock steps)
  | select scrutinee arms => exact .bind (h.eval scrutinee) fun v => h.select v arms .noMatch
  | lambda name params body => exact .closure (name.getD anonymousName) params body
  | call callee args location =>
    simp only [Expr.rename, Expr.renameItems_eq, Engine.evalKind]
    exact .bind (h.eval callee) fun f => .bind (h.evalItems args) fun vs =>
      h.whenReady f (.call vs location)
  | moduleDecl name exports functions => exact .evalModuleDecl name exports functions
  | moduleRef name => exact .evalModuleRef name
  | functionRef module name =>
    exact .bind (h.eval module) fun m => h.whenReady m (.functionRef name)
  | spawn function => exact .bind (h.eval function) fun f => h.whenReady f .spawn
  | raise tag message => exact .bind (h.eval message) fun v => h.whenReady v (.raise tag)
  | attempt body arms => exact h.evalAttempt body arms

theorem evalStep (e : Expr) :
    Echoes r X (Value.rename r) (E.evalStep e) (E'.evalStep (e.rename r)) := by
  refine .bind (f := id) (.gets fun _ _ hm => hm.interrupted) fun interrupted => ?_
  cases interrupted with
  | true => exact .fail _
  | false => exact h.evalKind e

theorem proceedStep (w : Work) :
    Echoes r X (Value.rename r) (E.proceedStep w) (E'.proceedStep (w.rename r)) := by
  cases w with
  | letIn bindings body => exact h.evalLet bindings body
  | block steps => exact h.evalBlock steps
  | yield v => exact .pure v
  | select value arms unmatched => exact h.select value arms unmatched

theorem connectiveLeft (op : BinaryOp) (right : Expr) (left : Value) :
    Echoes r X (Value.rename r) (E.connectiveLeft op right left)
      (E'.connectiveLeft op (right.rename r) (left.rename r)) := by
  cases left with
  | bool b =>
    have hright : Echoes r X (Value.rename r)
        (E.eval right >>= fun v => E.whenReady v (.connectiveRight op))
        (E'.eval (right.rename r) >>= fun v => E'.whenReady v (.connectiveRight op)) :=
      .bind (h.eval right) fun v => h.whenReady v (.connectiveRight op)
    cases b <;> cases op <;> first | exact hright | exact .pure (Value.bool _)
  | _ => exact .fail _

theorem resumeStep (frame : Frame) (v : Value) :
    Echoes r X (Value.rename r) (E.resumeStep frame v)
      (E'.resumeStep (frame.rename r) (v.rename r)) := by
  cases frame with
  | branch onTrue onFalse =>
    cases v with
    | bool b =>
      cases b with
      | true => exact h.eval onTrue
      | false => exact h.eval onFalse
    | _ => exact .fail _
  | connectiveLeft op right => exact h.connectiveLeft op right v
  | connectiveRight op =>
    cases v with
    | bool b => exact .pure (Value.bool b)
    | _ => exact .fail _
  | andThen next => exact h.proceed next
  | bindKeys value pattern next =>
    simp only [Frame.rename, Engine.resumeStep, Value.elements_rename]
    exact h.bindWith value pattern _ next
  | bindRetry value pattern keys next => exact h.bindWith value pattern keys next
  | bindGuard value guards next =>
    refine .bind (.guardVerdict v) fun holds => ?_
    cases holds with
    | true => exact h.checkGuards value guards next
    | false => exact .noMatch value
  | armKeys trial =>
    simp only [Frame.rename, Engine.resumeStep, Value.elements_rename]
    exact h.tryArm trial _
  | armRetry trial keys => exact h.tryArm trial keys
  | armGuard trial bindings guards =>
    refine .bind (.guardVerdict v) fun holds => ?_
    cases holds with
    | true => exact h.checkArmGuards trial bindings guards
    | false => exact h.proceed trial.next
  | alternative trial bindings body others =>
    refine .bind (.guardVerdict v) fun holds => ?_
    cases holds with
    | true => exact h.evalInArm bindings body
    | false => exact h.choose trial bindings others
  | call args location => exact h.callValue v args location
  | spawn => exact h.spawn v
  | functionRef name => exact .resolveIn v name
  | raise tag => exact .raise tag v

theorem handle (handler : Handler) (o : Outcome) :
    Echoes r X (Outcome.rename r) (E.handle handler o)
      (E'.handle (handler.rename r) (o.rename r)) := by
  cases handler with
  | resume frame env =>
    cases o with
    | ok v => exact .outcome (.within (h.resume frame v))
    | error e => exact .pure (Except.error e)
  | compute operation =>
    cases o with
    | ok v =>
      simp only [Handler.rename, renameResult, Engine.handle, Value.elements_rename]
      exact .outcome (h.mirrors _ _)
    | error e => exact .pure (Except.error e)
  | recover arms env =>
    cases o with
    | ok v => exact .pure (Except.ok v)
    | error e =>
      simp only [Handler.rename, renameResult, Engine.handle, Error.catchable_rename]
      split
      · exact .outcome (.within (h.recover e arms))
      · exact .pure (Except.error e)
  | apply function env =>
    cases o with
    | ok v => exact .outcome (.within (h.whenReady function (.call [v] none)))
    | error e => exact .pure (Except.error e)
  | applyEither function env =>
    refine .bind (f := Value.rename r) (.written fun _ _ hm => ?_) fun argument =>
      .outcome (.within (h.whenReady function (.call [argument] none)))
    cases o with
    | ok v => simp [Engine.eitherArgument, renameResult, Value.rename, Value.renameItems]
    | error e => exact hm.triple? [] e
  | report name => exact fun _ _ hm => .ok o (hm.withLogs _ _)

end Engine.Natural

/-- The engines are still so with one more level of fuel. -/
theorem Engine.Natural.step {E E' : Engine} (h : Natural r X E E')
    (hkeeps : ∀ {k o m m₁ p o'}, E.step.deliver k o m = .ok () m₁ →
      m.store.outcome? p = some o' → m₁.store.outcome? p = some o') :
    Natural r X E.step E'.step where
  context := h.context
  same := h.same
  eval := h.evalStep
  proceed := h.proceedStep
  resume := h.resumeStep
  deliver := h.deliver.deliverStep h.handle hkeeps

/-- Without fuel nothing is done, and if there are shadows they are settled with what there is ahead. -/
theorem natural_exhausted {context : Context} (h : context.Natural r) (X : Shadows) :
    Engine.Natural r X (Engine.exhausted context) (engine context X.lead) := by
  by_cases hX : ∃ x p, X x = some p
  · obtain ⟨x, p, hx⟩ := hX
    have hpos : 0 < X.lead := by rw [Shadows.lead_some hx]; exact Nat.one_pos
    rw [Shadows.lead_some hx]
    exact ⟨h, rfl, fun _ _ _ _ => .spent hpos, fun _ _ _ _ => .spent hpos, fun _ _ _ _ _ => .spent hpos,
      fun _ _ _ _ _ => .spent hpos, fun hx ho h hp => h.adopt hx ho hp _, fun h => by cases h⟩
  · rw [Shadows.lead, if_neg hX]
    exact ⟨h, rfl, fun _ => .throw .outOfFuel, fun _ => .throw .outOfFuel, fun _ _ => .throw .outOfFuel,
      fun _ _ => .throw .outOfFuel, fun hx => absurd ⟨_, _, hx⟩ hX, fun h => by cases h⟩

/-- Every engine treats identities as names. -/
theorem natural_engine {context : Context} (h : context.Natural r) (n : Nat) :
    Engine.Natural r X (engine context n) (engine context (n + X.lead)) := by
  induction n with
  | zero =>
    rw [Nat.zero_add]
    exact natural_exhausted h X
  | succ n ih =>
    rw [Nat.add_right_comm, engine_succ, engine_succ]
    refine ih.step fun {k o m m₁ p o'} hr hp => ?_
    have hends := ((conducted_engine context (n + 1)).deliver k o m).evolves
    rw [engine_succ, hr] at hends
    exact Evolves.outcome? hends hp

end Deferral
