import Deferral.Proofs.Eval.Parallel

/-!
# Two engines side by side

Two engines go `Abreast` if they run the parts of a program in parallel, the second one with the
qualified names in it relabelled. From engines that go abreast, each construct of the language does the
same on both sides: what is relabelled is code, and code is only passed on, stored with an environment
that its owner can run in, or taken out of a function that was declared in its owner.

The exception is the resolution of a qualified name, which looks at what has been relabelled
(`Abreast.resumeStep` leaves it out). Two engines that do the same there stay abreast with more fuel.
-/

set_option autoImplicit false

namespace Deferral

/-- The two engines run the parts of programs in parallel. -/
structure Abreast (R : Pairing) (E E' : Engine) : Prop where
  context : E'.context = E.context
  eval : ∀ e owner, Parallel R owner (E.eval e) (E'.eval (e.relabel R.label owner))
  proceed : ∀ w owner, Parallel R owner (E.proceed w) (E'.proceed (w.relabel R.label owner))
  resume : ∀ frame v owner,
    Parallel R owner (E.resume frame v) (E'.resume (frame.relabel R.label owner) v)
  deliver : InStep R E.deliver E'.deliver

variable {R : Pairing} {owner : Option ModuleName}

/-! ## What runs no part of a program -/

theorem Native.parallel (host : String → List Value → Reply) (operation : Native) (args : List Value) :
    Parallel R owner (operation.run host args) (operation.run host args) := by
  unfold Native.run
  split
  · exact .pure _
  · rename_i v
    unfold sizeOf
    split
    · exact .ofExcept _
    · exact .fail _
  · exact .pure _
  · exact .bind (.gets fun _ _ h => by rw [h.labels]) fun _ => .pure _
  · rename_i name
    unfold reply
    refine .bind (.logValues _) fun _ => ?_
    have hanswer : Parallel R owner (answer (host name args).answer)
        (answer (host name args).answer) := by
      unfold answer
      split
      · exact .pure _
      · exact .fail _
      · exact .throw _
    cases (host name args).interrupts with
    | true => exact .bind .interrupt fun _ => hanswer
    | false => exact hanswer
  · exact .fail _

theorem Strict.parallel (context : Context) (operation : Strict) (operands : List Value) :
    Parallel R owner (operation.run context operands) (operation.run context operands) := by
  unfold Strict.run
  split
  · exact .ofExcept _
  · exact .fail _
  · exact .ofExcept _
  · exact .fail _
  · exact .pure _
  · exact .pure _
  · exact Native.parallel _ _ _

namespace Parallel

theorem notCallable (v : Value) :
    Parallel R owner (Engine.notCallable v) (Engine.notCallable v) :=
  .bind (.quoted v) fun _ => .fail _

theorem evalIdentifier (name : String) :
    Parallel R owner (Engine.evalIdentifier name) (Engine.evalIdentifier name) := by
  refine .environment fun env _ => ?_
  split
  · exact .pure _
  · exact .fail _

/-- The body of a lambda has no owner. -/
theorem closure (name : String) (params : List String) (body : Expr) :
    Parallel R owner (Deferral.closure name params body)
      (Deferral.closure name params (body.relabel R.label none)) :=
  .environment fun env _ => .bind (.addFunction ⟨name, .code params body, env.bindings, none⟩)
    fun _ => .pure _

theorem addFunctions (captures : List Binding) (module : Option Module) :
    ∀ ds, Parallel R owner (Deferral.addFunctions captures module ds)
      (Deferral.addFunctions captures module
        (Expr.relabelFunctions R.label (module.map (·.name)) ds))
  | [] => .pure _
  | .mk name params body :: ds =>
    .bind (.addFunction ⟨name, .code params body, captures, module⟩)
      fun _ => addFunctions captures module ds

theorem registerModule (m : Module) :
    Parallel R owner (Deferral.registerModule m) (Deferral.registerModule m) := by
  intro w w' h _
  have hw' : Deferral.registerModule m w' = .ok ()
      { w' with rest := { w'.rest with modules := Registry.register w.rest.modules m } } := by
    rw [← h.modules]
    rfl
  rw [hw']
  exact .ok () (.of_alike (h.withModules _) rfl rfl rfl)

end Parallel

theorem numbered_relabelFunctions (label : Labelling) (start : Nat) (ds : List FunctionDecl) :
    numbered start (Expr.relabelFunctions label owner ds) = numbered start ds := by
  induction ds generalizing start with
  | nil => rfl
  | cons d ds ih =>
    cases d
    simp only [Expr.relabelFunctions, FunctionDecl.relabel, numbered, ih]
    rfl

theorem Module.name_of_declare {name : ModuleName} {exports : List String}
    {functions : List (String × FunctionId)} {m : Module}
    (h : Module.declare name exports functions = .ok m) : m.name = name := by
  simp only [Module.declare, Bind.bind, Except.bind] at h
  split at h
  · cases h
  · split at h
    · cases h
    · cases h
      rfl

namespace Parallel

theorem functionCount :
    Parallel R owner (EvalM.gets (·.rest.functions.size)) (EvalM.gets (·.rest.functions.size)) :=
  .gets fun _ _ h => by rw [h.functions, Array.size_map]

/-- Goes on with the value, if there is one. -/
theorem ofExcept_bind {α β : Type} {r : Except Error α} {f g : α → EvalM β}
    (hf : ∀ a, r = .ok a → Parallel R owner (f a) (g a)) :
    Parallel R owner (EvalM.ofExcept r >>= f) (EvalM.ofExcept r >>= g) := by
  cases r with
  | ok a => exact hf a rfl
  | error e => exact fun _ _ h _ => .error _ (.refl h)

/-- A declaration owns the bodies of its functions. -/
theorem evalModuleDecl (name : ModuleName) (exports : List String) (ds : List FunctionDecl) :
    Parallel R owner (Deferral.evalModuleDecl name exports ds)
      (Deferral.evalModuleDecl name exports (Expr.relabelFunctions R.label (some name) ds)) := by
  unfold Deferral.evalModuleDecl
  simp only [numbered_relabelFunctions]
  refine .bind .functionCount fun start => .ofExcept_bind fun m hm => ?_
  refine .environment fun env _ => ?_
  have hfunctions : Parallel R owner _ _ := addFunctions env.bindings (some m) ds
  rw [Option.map_some, Module.name_of_declare hm] at hfunctions
  exact .bind hfunctions fun _ => .bind (.registerModule m) fun _ => .pure _

/-- The functions of a module that they are not linked to have no owner. -/
theorem evalModuleBuild (name : ModuleName) (exports : List String) (ds : List FunctionDecl) :
    Parallel R owner (Deferral.evalModuleBuild name exports ds)
      (Deferral.evalModuleBuild name exports (Expr.relabelFunctions R.label none ds)) := by
  unfold Deferral.evalModuleBuild
  simp only [numbered_relabelFunctions]
  exact .bind .functionCount fun start => .ofExcept_bind fun m _ => .environment fun env _ =>
    .bind (addFunctions env.bindings none ds) fun _ => .bind (.registerModule m) fun _ => .pure _

theorem evalModuleRef (name : ModuleName) :
    Parallel R owner (Deferral.evalModuleRef name) (Deferral.evalModuleRef name) := by
  refine .bind (.gets fun _ _ h => by rw [h.modules]) fun m => ?_
  cases m with
  | none => exact .fail _
  | some m => exact .pure _

theorem resolveIn (module : Value) (name : String) :
    Parallel R owner (Deferral.resolveIn module name) (Deferral.resolveIn module name) := by
  unfold Deferral.resolveIn
  split
  · exact .environment fun env _ => .bind (.ofExcept _) fun _ => .pure _
  · exact .fail _

theorem raise (tag : String) (message : Value) :
    Parallel R owner (Engine.raise tag message) (Engine.raise tag message) := by
  unfold Engine.raise
  split
  · exact .environment fun _ _ => .fail _
  · exact .fail _

/-- A task is put into the queue for a new promise. -/
theorem enqueue {task : Task} {m m' : Machine} (h : Alike R m m')
    (ht : m.store.Owns R.fence task.target) :
    Agree (After R m) (Engine.enqueue task m) (Engine.enqueue task m') := by
  have hm' : Engine.enqueue task m' = .ok () (m'.withQueue (m.rest.queue ++ [task])) := by
    rw [← h.queue]
    rfl
  rw [hm']
  refine .ok () ⟨h.withQueue _, ⟨.refl _, [task], rfl, fun t htask => ?_⟩, rfl⟩
  rw [List.mem_singleton.1 htask]
  exact ht

end Parallel

/-! ## Bodies of functions -/

theorem bodyEnvironment_relabelAs (label : Labelling) (owner : Option ModuleName) (maxDepth : Nat)
    (id : FunctionId) (f : Function) (args : List Value) (location : Option Location)
    (caller : Environment) :
    bodyEnvironment maxDepth id (f.relabelAs label owner) args location caller =
      bodyEnvironment maxDepth id f args location caller := by
  unfold bodyEnvironment
  rw [Function.params_relabelAs]
  rfl

/-- A body runs as code of the module that the function is linked to, and of no module if there is
none, whoever calls it. -/
theorem module_bodyEnvironment {maxDepth : Nat} {id : FunctionId} {f : Function} {args : List Value}
    {location : Option Location} {caller env : Environment}
    (h : bodyEnvironment maxDepth id f args location caller = .ok env) : env.module = f.home := by
  simp only [bodyEnvironment, Environment.enterCall, Bind.bind, Except.bind] at h
  split at h
  · cases h
  · rename_i entered henter
    split at henter
    · cases henter
    · cases henter
      cases h
      rw [Environment.module_defineAll]
      unfold bindSelf
      split
      · rename_i m hm
        rw [Function.home, hm]
        rfl
      · rename_i hm
        rw [Function.home, hm]
        split <;> rfl

namespace Abreast

variable {E E' : Engine} (h : Abreast R E E')
include h

theorem apply (operation : Strict) (operands : List Value) :
    Parallel R owner (Strict.apply E operation operands) (Strict.apply E' operation operands) := by
  unfold Strict.apply
  rw [h.context]
  split
  · exact .bind (.all h.deliver _) fun _ => .bind (.derive h.deliver _ (.compute operation))
      fun _ => .pure _
  · exact Strict.parallel _ _ _

theorem evalItems : ∀ es,
    Parallel R owner (E.evalItems es) (E'.evalItems (Expr.relabelItems R.label owner es))
  | [] => .pure _
  | e :: es => .bind (h.eval e owner) fun _ => .bind (evalItems es) fun _ => .pure _

theorem evalInArm (bindings : List (String × Value)) (e : Expr) :
    Parallel R owner (E.evalInArm bindings e)
      (E'.evalInArm bindings (e.relabel R.label owner)) :=
  .inFrame (.bind (.define bindings) fun _ => h.eval e owner)

/-- A function runs as the code that it has, or as code of no module. -/
theorem invoke (id : FunctionId) {f : Function} {home : Option ModuleName} (hhome : R.RunsAs home f.home)
    (args : List Value) (location : Option Location) :
    Parallel R owner (E.invoke id f args location)
      (E'.invoke id (f.relabelAs R.label home) args location) := by
  unfold Engine.invoke
  rw [Function.arity_relabelAs, Function.qualifiedName_relabelAs, h.context]
  split
  · exact .fail _
  · have hbody : (f.relabelAs R.label home).body = f.body.relabel R.label home := rfl
    simp only [bodyEnvironment_relabelAs]
    cases hf : f.body with
    | native operation arity =>
      rw [hf] at hbody
      simp only [hbody, FunctionBody.relabel]
      exact apply h _ _
    | code params body =>
      rw [hf] at hbody
      simp only [hbody, FunctionBody.relabel]
      refine .environment fun caller _ => .ofExcept_bind fun env henv => ?_
      rw [← module_bodyEnvironment henv] at hhome
      exact .within hhome (.traced _ (h.eval body home))

theorem callValue (callee : Value) (args : List Value) (location : Option Location) :
    Parallel R owner (E.callValue callee args location) (E'.callValue callee args location) := by
  cases callee with
  | function id =>
    intro m m' hm howner
    have hcurrent := hm.current? id
    cases hf : m.current? id with
    | none =>
      rw [hf] at hcurrent
      have hx : E.callValue (.function id) args location m = Engine.notCallable (.function id) m := by
        simp only [Engine.callValue, EvalM.gets, Bind.bind, EStateM.bind, hf]
      have hy : E'.callValue (.function id) args location m' =
          Engine.notCallable (.function id) m' := by
        simp only [Engine.callValue, EvalM.gets, Bind.bind, EStateM.bind, hcurrent, Option.map_none]
      rw [hx, hy]
      exact Parallel.notCallable _ m m' hm howner
    | some f =>
      rw [hf] at hcurrent
      rw [Engine.callValue_of_function hf, Engine.callValue_of_function hcurrent]
      exact invoke h id (hm.runsAs hf) args location m m' hm howner
  | _ => exact .notCallable _

theorem runTask {task : Task} {m m' : Machine} (hm : Alike R m m')
    (ht : m.store.Owns R.fence task.target) :
    Agree (After R m) (E.runTask task m) (E'.runTask task m') := by
  have hcall : Parallel R m.rest.env.module
      (EvalM.contained (EvalM.within task.caller (E.callValue (.function task.function) [] none)))
      (EvalM.contained (EvalM.within task.caller (E'.callValue (.function task.function) [] none))) :=
    .contained (.within (.refl _) (callValue h _ _ _))
  refine (hcall m m' hm (.refl _)).bind (fun _ _ hr => hr) fun o m₁ m₁' h₁ => ?_
  exact .trans h₁ (h.deliver.fulfil h₁.alike (h₁.grown.store.owns ht) o)

theorem submit (id : FunctionId) : Parallel R owner (E.submit id) (E'.submit id) := by
  unfold Engine.submit
  rw [h.context]
  refine .environment fun caller _ => .new fun target m m' hm howner htarget => ?_
  have hgo : ∀ x y : EvalM Unit, Agree (After R m) (x m) (y m') →
      Agree (After R m) ((x >>= fun _ => Pure.pure (Value.promise target)) m)
        ((y >>= fun _ => Pure.pure (Value.promise target)) m') := fun x y hxy =>
    hxy.bind (fun _ _ hr => hr) fun _ _ _ h₁ => .ok _ h₁
  cases E.context.executor with
  | immediate => exact hgo _ _ (runTask h hm htarget)
  | queued => exact hgo _ _ (Parallel.enqueue hm htarget)
  | refusing => exact hgo _ _ (h.deliver.fulfil hm htarget _)
  | deciding atOnce =>
    dsimp only
    split
    · exact hgo _ _ (runTask h hm htarget)
    · exact hgo _ _ (Parallel.enqueue hm htarget)

theorem spawn (v : Value) : Parallel R owner (E.spawn v) (E'.spawn v) := by
  cases v with
  | function id =>
    intro m m' hm howner
    have hcurrent := hm.current? id
    cases hf : m.current? id with
    | none =>
      rw [hf, Option.map_none] at hcurrent
      simp only [Engine.spawn, EvalM.gets, Bind.bind, EStateM.bind, hf, hcurrent]
      exact Parallel.fail _ m m' hm howner
    | some f =>
      rw [hf, Option.map_some] at hcurrent
      simp only [Engine.spawn, EvalM.gets, Bind.bind, EStateM.bind, hf, hcurrent,
        Function.arity_relabelAs, Function.qualifiedName_relabelAs]
      split
      · exact submit h id m m' hm howner
      · exact Parallel.fail _ m m' hm howner
  | _ => exact .fail _

/-! ### Work that waits -/

/-- The frame is left with the environment of its owner. -/
theorem whenReady (v : Value) (frame : Frame) :
    Parallel R owner (E.whenReady v frame) (E'.whenReady v (frame.relabel R.label owner)) := by
  unfold Engine.whenReady
  split
  · exact .environment fun env henv =>
      .bind (.derive h.deliver _ (.resume henv frame)) fun _ => .pure _
  · exact h.resume frame _ owner

theorem whenAllReady (vs : List Value) (frame : Frame) {now now' : List Value → EvalM Value}
    (hnow : ∀ vs, Parallel R owner (now vs) (now' vs)) :
    Parallel R owner (E.whenAllReady vs frame now)
      (E'.whenAllReady vs (frame.relabel R.label owner) now') := by
  unfold Engine.whenAllReady
  split
  · exact .bind (.all h.deliver _) fun _ => whenReady h _ frame
  · exact hnow vs

/-! ### Bindings -/

theorem checkGuards (value : Value) (guards : List Expr) (next : Work) :
    Parallel R owner (E.checkGuards value guards next)
      (E'.checkGuards value (Expr.relabelItems R.label owner guards)
        (next.relabel R.label owner)) := by
  cases guards with
  | nil => exact h.proceed next owner
  | cons guard rest =>
    exact .bind (h.eval guard owner) fun v => whenReady h v (.bindGuard value rest next)

theorem bindWith (value : Value) (pattern : Pattern) (keys : List Value) (next : Work) :
    Parallel R owner (E.bindWith value pattern keys next)
      (E'.bindWith value (pattern.relabel R.label owner) keys (next.relabel R.label owner)) := by
  intro m m' hm howner
  have hmatch : (pattern.relabel R.label owner).matching m'.sight value keys =
      (pattern.matching m.sight value keys).map
        (Matching.mapGuards (Expr.relabel R.label owner)) := by
    rw [hm.sight, Pattern.matching_relabel]
  cases hv : pattern.matching m.sight value keys with
  | error e =>
    rw [hv] at hmatch
    rw [Engine.bindWith_of_error hv, Engine.bindWith_of_error hmatch]
    exact .error _ (.refl hm)
  | ok verdict =>
    rw [hv] at hmatch
    cases verdict with
    | noMatch =>
      rw [Engine.bindWith_of_noMatch hv, Engine.bindWith_of_noMatch hmatch]
      exact Parallel.noMatch value m m' hm howner
    | pending p =>
      rw [Engine.bindWith_of_pending hv, Engine.bindWith_of_pending hmatch]
      exact whenReady h _ (.bindRetry value pattern keys next) m m' hm howner
    | matched found =>
      rw [Engine.bindWith_of_matched hv, Engine.bindWith_of_matched hmatch]
      have hguards : found.guards.map (Expr.relabel R.label owner) =
          Expr.relabelItems R.label owner found.guards := (Expr.relabelItems_eq ..).symm
      have hdefine : Parallel R owner _ _ := .define found.bindings
      exact (hdefine.bind fun _ => hguards ▸ checkGuards h value found.guards next) m m' hm howner

theorem bind (value : Value) (pattern : Pattern) (next : Work) :
    Parallel R owner (E.bind value pattern next)
      (E'.bind value (pattern.relabel R.label owner) (next.relabel R.label owner)) := by
  unfold Engine.bind
  rw [Pattern.keys_relabel]
  exact .bind (evalItems h _) fun keys => whenAllReady h keys (.bindKeys value pattern next)
    fun keys => bindWith h value pattern keys next

theorem bindingValue (pattern : Pattern) (e : Expr) :
    Parallel R owner (E.bindingValue pattern e)
      (E'.bindingValue (pattern.relabel R.label owner) (e.relabel R.label owner)) := by
  cases pattern with
  | bind name =>
    cases e with
    | lambda _ params body => exact .closure name params body
    | _ => exact h.eval _ owner
  | _ => exact h.eval e owner

theorem evalLet (bindings : List (Pattern × Expr)) (body : Expr) :
    Parallel R owner (E.evalLet bindings body)
      (E'.evalLet (Expr.relabelBindings R.label owner bindings) (body.relabel R.label owner)) := by
  cases bindings with
  | nil => exact h.eval body owner
  | cons b rest =>
    obtain ⟨pattern, e⟩ := b
    exact .bind (bindingValue h pattern e) fun v => bind h v pattern (.letIn rest body)

theorem evalBlock (steps : List Step) :
    Parallel R owner (E.evalBlock steps)
      (E'.evalBlock (Expr.relabelSteps R.label owner steps)) := by
  cases steps with
  | nil => exact .pure _
  | cons step rest =>
    cases step with
    | run e =>
      cases rest with
      | nil => exact h.eval e owner
      | cons next rest =>
        exact .bind (h.eval e owner) fun v => whenReady h v (.andThen (.block (next :: rest)))
    | bind pattern e =>
      cases rest with
      | nil => exact .bind (h.eval e owner) fun v => bind h v pattern (.yield v)
      | cons next rest =>
        exact .bind (h.eval e owner) fun v => bind h v pattern (.block (next :: rest))

/-! ### Selections -/

theorem choose (trial : Trial) (bindings : List (String × Value))
    (alternatives : List (Option Expr × Expr)) :
    Parallel R owner (E.choose trial bindings alternatives)
      (E'.choose (trial.relabel R.label owner) bindings
        (Arm.relabelAlternatives R.label owner alternatives)) := by
  cases alternatives with
  | nil => exact h.proceed trial.next owner
  | cons a others =>
    obtain ⟨guard, body⟩ := a
    cases guard with
    | none => exact evalInArm h bindings body
    | some guard =>
      exact .bind (evalInArm h bindings guard) fun v =>
        whenReady h v (.alternative trial bindings body others)

theorem checkArmGuards (trial : Trial) (bindings : List (String × Value)) (guards : List Expr) :
    Parallel R owner (E.checkArmGuards trial bindings guards)
      (E'.checkArmGuards (trial.relabel R.label owner) bindings
        (Expr.relabelItems R.label owner guards)) := by
  cases guards with
  | nil =>
    have halternatives : Parallel R owner _ _ := choose h trial bindings trial.arm.alternatives
    rwa [← Arm.alternatives_relabel] at halternatives
  | cons guard rest =>
    exact .bind (evalInArm h bindings guard) fun v => whenReady h v (.armGuard trial bindings rest)

theorem tryArm (trial : Trial) (keys : List Value) :
    Parallel R owner (E.tryArm trial keys) (E'.tryArm (trial.relabel R.label owner) keys) := by
  intro m m' hm howner
  have hmatch : (trial.relabel R.label owner).arm.pattern.matching m'.sight
      (trial.relabel R.label owner).value keys =
        (trial.arm.pattern.matching m.sight trial.value keys).map
          (Matching.mapGuards (Expr.relabel R.label owner)) := by
    rw [hm.sight, ← Pattern.matching_relabel, ← Arm.pattern_relabel]
    rfl
  cases hv : trial.arm.pattern.matching m.sight trial.value keys with
  | error e =>
    rw [hv] at hmatch
    rw [Engine.tryArm_of_error hv, Engine.tryArm_of_error hmatch]
    exact .error _ (.refl hm)
  | ok verdict =>
    rw [hv] at hmatch
    cases verdict with
    | noMatch =>
      rw [Engine.tryArm_of_noMatch hv, Engine.tryArm_of_noMatch hmatch]
      exact h.proceed trial.next owner m m' hm howner
    | pending p =>
      rw [Engine.tryArm_of_pending hv, Engine.tryArm_of_pending hmatch]
      exact whenReady h _ (.armRetry trial keys) m m' hm howner
    | matched found =>
      rw [Engine.tryArm_of_matched hv, Engine.tryArm_of_matched hmatch]
      have hguards : found.guards.map (Expr.relabel R.label owner) =
          Expr.relabelItems R.label owner found.guards := (Expr.relabelItems_eq ..).symm
      have hcheck : Parallel R owner _ _ := checkArmGuards h trial found.bindings found.guards
      rw [← hguards] at hcheck
      exact hcheck m m' hm howner

theorem select (value : Value) (arms : List Arm) (unmatched : Unmatched) :
    Parallel R owner (E.select value arms unmatched)
      (E'.select value (Expr.relabelArms R.label owner arms) unmatched) := by
  cases arms with
  | nil =>
    cases unmatched with
    | noMatch => exact .noMatch value
    | rethrow e => exact .fail e
  | cons arm later =>
    let trial : Trial := ⟨value, arm, later, unmatched⟩
    have hkeys : (arm.relabel R.label owner).pattern.keys =
        Expr.relabelItems R.label owner arm.pattern.keys := by
      rw [Arm.pattern_relabel, Pattern.keys_relabel]
    simp only [Expr.relabelArms, Engine.select, hkeys]
    exact .bind (evalItems h _) fun keys => whenAllReady h keys (.armKeys trial) fun keys =>
      tryArm h trial keys

theorem recover (e : Error) (arms : List Arm) :
    Parallel R owner (E.recover e arms) (E'.recover e (Expr.relabelArms R.label owner arms)) :=
  .bind (.written fun _ _ hm => by rw [hm.triple?, hm.env]) fun _ => select h _ _ _

theorem evalAttempt (body : Expr) (arms : List Arm) :
    Parallel R owner (E.evalAttempt body arms)
      (E'.evalAttempt (body.relabel R.label owner) (Expr.relabelArms R.label owner arms)) := by
  refine .bind (.outcome (.inFrame (h.eval body owner))) fun outcome => ?_
  split
  · exact .environment fun env henv =>
      .bind (.derive h.deliver _ (.recover henv arms)) fun _ => .pure _
  · exact .pure _
  · split
    · exact recover h _ arms
    · exact .fail _

/-! ### One more level -/

theorem evalKind (e : Expr) :
    Parallel R owner (E.evalKind e) (E'.evalKind (e.relabel R.label owner)) := by
  cases e with
  | literal v => exact .pure v
  | identifier name => exact .evalIdentifier name
  | tuple items => exact .bind (evalItems h items) fun _ => .pure _
  | sequence items => exact .bind (evalItems h items) fun _ => .pure _
  | set items => exact .bind (evalItems h items) fun _ => apply h _ _
  | dict entries =>
    have hitems : Parallel R owner _ _ := evalItems h (Engine.flatten entries)
    rw [Expr.relabelItems_eq, ← Expr.flatten_relabelEntries] at hitems
    exact .bind hitems fun _ => apply h _ _
  | binary op left right =>
    simp only [Expr.relabel, Engine.evalKind]
    split
    · exact .bind (h.eval left owner) fun l => whenReady h l (.connectiveLeft .and right)
    · exact .bind (h.eval left owner) fun l => whenReady h l (.connectiveLeft .or right)
    · exact .bind (h.eval left owner) fun _ => .bind (h.eval right owner) fun _ => apply h _ _
  | unary op operand => exact .bind (h.eval operand owner) fun _ => apply h _ _
  | branch condition onTrue onFalse =>
    exact .bind (h.eval condition owner) fun c => whenReady h c (.branch onTrue onFalse)
  | letIn bindings body => exact .inFrame (evalLet h bindings body)
  | block steps => exact .inFrame (evalBlock h steps)
  | select scrutinee arms =>
    exact .bind (h.eval scrutinee owner) fun v => select h v arms .noMatch
  | lambda name params body => exact .closure (name.getD anonymousName) params body
  | call callee args location =>
    exact .bind (h.eval callee owner) fun f => .bind (evalItems h args) fun vs =>
      whenReady h f (.call vs location)
  | moduleDecl name exports functions => exact .evalModuleDecl name exports functions
  | moduleRef name => exact .evalModuleRef name
  | functionRef module name =>
    exact .bind (h.eval module owner) fun m => whenReady h m (.functionRef name)
  | spawn function => exact .bind (h.eval function owner) fun f => whenReady h f .spawn
  | raise tag message => exact .bind (h.eval message owner) fun v => whenReady h v (.raise tag)
  | attempt body arms => exact evalAttempt h body arms

theorem evalStep (e : Expr) :
    Parallel R owner (E.evalStep e) (E'.evalStep (e.relabel R.label owner)) := by
  refine .bind (.gets fun _ _ hm => hm.interrupted) fun interrupted => ?_
  split
  · exact .fail _
  · exact evalKind h e

theorem proceedStep (w : Work) :
    Parallel R owner (E.proceedStep w) (E'.proceedStep (w.relabel R.label owner)) := by
  cases w with
  | letIn bindings body => exact evalLet h bindings body
  | block steps => exact evalBlock h steps
  | yield v => exact .pure v
  | select value arms unmatched => exact select h value arms unmatched

theorem connectiveLeft (op : BinaryOp) (right : Expr) (left : Value) :
    Parallel R owner (E.connectiveLeft op right left)
      (E'.connectiveLeft op (right.relabel R.label owner) left) := by
  unfold Engine.connectiveLeft
  split
  · exact .pure _
  · exact .pure _
  · exact .bind (h.eval right owner) fun r => whenReady h r (.connectiveRight op)
  · exact .fail _

/-- Every frame but the one that resolves a qualified name. -/
theorem resumeStep (frame : Frame) (v : Value) (hframe : ∀ name, frame ≠ .functionRef name) :
    Parallel R owner (E.resumeStep frame v)
      (E'.resumeStep (frame.relabel R.label owner) v) := by
  cases frame with
  | branch onTrue onFalse =>
    simp only [Frame.relabel, Engine.resumeStep]
    split
    · exact h.eval onTrue owner
    · exact h.eval onFalse owner
    · exact .fail _
  | connectiveLeft op right => exact connectiveLeft h op right v
  | connectiveRight op =>
    simp only [Frame.relabel, Engine.resumeStep]
    split
    · exact .pure _
    · exact .fail _
  | andThen next => exact h.proceed next owner
  | bindKeys value pattern next => exact bindWith h value pattern _ next
  | bindRetry value pattern keys next => exact bindWith h value pattern keys next
  | bindGuard value guards next =>
    refine .bind (.ofExcept _) fun holds => ?_
    split
    · exact checkGuards h value guards next
    · exact .noMatch value
  | armKeys trial => exact tryArm h trial _
  | armRetry trial keys => exact tryArm h trial keys
  | armGuard trial bindings guards =>
    refine .bind (.ofExcept _) fun holds => ?_
    split
    · exact checkArmGuards h trial bindings guards
    · exact h.proceed trial.next owner
  | alternative trial bindings body others =>
    refine .bind (.ofExcept _) fun holds => ?_
    split
    · exact evalInArm h bindings body
    · exact choose h trial bindings others
  | call args location => exact callValue h v args location
  | spawn => exact spawn h v
  | functionRef name => exact absurd rfl (hframe name)
  | raise tag => exact .raise tag v

/-- Every frame, if nothing has been relabelled. -/
theorem resumeStep_plain (hplain : R.label = .plain) (frame : Frame) (v : Value) :
    Parallel R owner (E.resumeStep frame v)
      (E'.resumeStep (frame.relabel R.label owner) v) := by
  by_cases hframe : ∃ name, frame = .functionRef name
  · obtain ⟨name, rfl⟩ := hframe
    rw [hplain, Frame.relabel_plain]
    exact .resolveIn v name
  · exact resumeStep h frame v fun name he => hframe ⟨name, he⟩

theorem handle {handler handler' : Handler} (o : Outcome) (hrel : R.Rewrites handler handler') :
    Parallel R owner (E.handle handler o) (E'.handle handler' o) := by
  cases hrel with
  | resume howner frame =>
    cases o with
    | ok v => exact .outcome (.within howner (h.resume frame v _))
    | error e => exact .pure _
  | compute operation =>
    cases o with
    | ok v =>
      have hrun : Parallel R owner (EvalM.outcome (operation.run E.context v.elements))
          (EvalM.outcome (operation.run E.context v.elements)) := .outcome (Strict.parallel _ _ _)
      simpa only [Engine.handle, h.context] using hrun
    | error e => exact .pure _
  | recover howner arms =>
    cases o with
    | ok v => exact .pure _
    | error e =>
      simp only [Engine.handle]
      split
      · exact .outcome (.within howner (recover h e arms))
      · exact .pure _
  | apply function env =>
    cases o with
    | ok v => exact .outcome (.within (.refl _) (whenReady h function (.call [v] none)))
    | error e => exact .pure _
  | applyEither function env =>
    refine .bind (.written fun _ _ hm => ?_) fun argument =>
      .outcome (.within (.refl _) (whenReady h function (.call [argument] none)))
    cases o with
    | ok v => rfl
    | error e => rw [Engine.eitherArgument, Engine.eitherArgument, hm.triple?]
  | report name =>
    refine .bind (.gets fun _ _ hm => ?_) fun _ => .bind (.log _) fun _ => .pure _
    rw [hm.snapshot, hm.report]

theorem deliverStep : InStep R E.deliverStep E'.deliverStep :=
  h.deliver.deliverStep fun o _ hrel => handle h o hrel

end Abreast

/-- Engines without fuel go abreast. -/
theorem abreast_exhausted (R : Pairing) (context : Context) :
    Abreast R (.exhausted context) (.exhausted context) :=
  ⟨rfl, fun _ _ => .throw _, fun _ _ => .throw _, fun _ _ _ => .throw _,
    fun _ _ _ _ _ _ h _ => .error _ (.refl h)⟩

end Deferral
