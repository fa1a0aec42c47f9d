import Deferral.Proofs.Promise.Trace
import Deferral.Proofs.Promise.Composed
import Deferral.Proofs.Eval.Run

/-!
# Invariants of what is defined

Evaluation makes functions wherever it likes, but modules in two places only: where one is declared, and
where a host builds one. An invariant of the functions and modules of a machine (`Definitional`) is
therefore kept by every run of the evaluator, with whatever fuel and however it ends
(`Definitional.engine`), as soon as it survives a new function and these two. Everything else leaves the
functions and the modules as they are.
-/

set_option autoImplicit false

namespace Deferral

/-- The computation keeps an invariant of machines, however it ends. -/
def Keeps (I : Machine → Prop) {α : Type} (x : EvalM α) : Prop := ∀ m, I m → I (finalWorld (x m))

/-- An invariant of the functions and the modules of a machine, which survives new ones. -/
structure Definitional (I : Machine → Prop) : Prop where
  congr : ∀ {m m' : Machine}, m'.rest.functions = m.rest.functions →
    m'.rest.modules = m.rest.modules → I m → I m'
  function : ∀ {m : Machine} (f : Function), I m → I (m.withFunction f)
  declared : ∀ name exports ds, Keeps I (evalModuleDecl name exports ds)
  built : ∀ name exports ds, Keeps I (evalModuleBuild name exports ds)

/-- An invariant of what is defined, and parts of a program that keep it. -/
structure Keeping (I : Machine → Prop) (E : Engine) : Prop extends Definitional I where
  eval : ∀ e, Keeps I (E.eval e)
  proceed : ∀ w, Keeps I (E.proceed w)
  resume : ∀ frame v, Keeps I (E.resume frame v)
  deliver : ∀ k o, Keeps I (E.deliver k o)

namespace Keeps

variable {I : Machine → Prop} {α β : Type} {x : EvalM α}

theorem pure (a : α) : Keeps I (Pure.pure a : EvalM α) := fun _ hm => hm

theorem bind {f : α → EvalM β} (hx : Keeps I x) (hf : ∀ a, Keeps I (f a)) : Keeps I (x >>= f) := by
  intro m hm
  have hxm := hx m hm
  change I (finalWorld (EStateM.bind x f m))
  unfold EStateM.bind
  cases hr : x m with
  | ok a m' =>
    rw [hr] at hxm
    exact hf a m' hxm
  | error e m' =>
    rw [hr] at hxm
    exact hxm

theorem fail (e : Error) : Keeps I (EvalM.fail e : EvalM α) := fun _ hm => hm

theorem throw (e : Abort) : Keeps I (throw e : EvalM α) := fun _ hm => hm

theorem ofExcept (r : Except Error α) : Keeps I (EvalM.ofExcept r) := by
  cases r with
  | ok a => exact pure a
  | error e => exact fail e

theorem gets (f : Machine → α) : Keeps I (EvalM.gets f) := fun _ hm => hm

theorem environment : Keeps I EvalM.environment := gets _

theorem written (text : Machine → Option α) : Keeps I (EvalM.written text) := by
  intro m hm
  unfold EvalM.written
  split <;> exact hm

theorem noMatch (v : Value) : Keeps I (EvalM.noMatch v : EvalM α) := bind (written _) fun _ => fail _

theorem outcome (h : Keeps I x) : Keeps I (EvalM.outcome x) := by
  intro m hm
  have hxm := h m hm
  unfold EvalM.outcome
  split <;> rename_i hr <;> rw [hr] at hxm <;> exact hxm

theorem contained (h : Keeps I x) : Keeps I (EvalM.contained x) := by
  intro m hm
  have hxm := h m hm
  unfold EvalM.contained
  split <;> rename_i hr <;> rw [hr] at hxm <;> exact hxm

theorem traced (h : Keeps I x) (stack : StackTrace) : Keeps I (EvalM.traced stack x) := by
  intro m hm
  have hxm := h m hm
  unfold EvalM.traced
  split
  · rename_i hr
    rw [hr] at hxm
    exact hxm
  · exact hxm

end Keeps

namespace Definitional

variable {I : Machine → Prop} (hI : Definitional I) {α : Type} {x : EvalM α}
include hI

/-- What leaves the functions and modules alone keeps the invariant. -/
theorem still (h : ∀ m, (finalWorld (x m)).rest.functions = m.rest.functions ∧
    (finalWorld (x m)).rest.modules = m.rest.modules) : Keeps I x :=
  fun m hm => hI.congr (h m).1 (h m).2 hm

theorem addFunction (f : Function) : Keeps I (EvalM.addFunction f) := fun _ hm => hI.function f hm

theorem ensuring (h : Keeps I x) {after : Machine → Machine}
    (hafter : ∀ m, (after m).rest.functions = m.rest.functions ∧
      (after m).rest.modules = m.rest.modules) : Keeps I (EvalM.ensuring x after) := by
  intro m hm
  have hxm := h m hm
  unfold EvalM.ensuring
  split <;> rename_i hr <;> rw [hr] at hxm <;> exact hI.congr (hafter _).1 (hafter _).2 hxm

theorem within (h : Keeps I x) (env : Environment) : Keeps I (EvalM.within env x) :=
  .bind .environment fun _ => .bind (hI.still fun _ => ⟨rfl, rfl⟩) fun _ =>
    hI.ensuring h fun _ => ⟨rfl, rfl⟩

theorem inFrame (h : Keeps I x) : Keeps I (EvalM.inFrame x) :=
  .bind (hI.still fun _ => ⟨rfl, rfl⟩) fun _ => hI.ensuring h fun _ => ⟨rfl, rfl⟩

theorem closure (name : String) (params : List String) (body : Expr) :
    Keeps I (Deferral.closure name params body) :=
  .bind .environment fun _ => .bind (hI.addFunction _) fun _ => .pure _

theorem reply (r : Reply) : Keeps I (Native.reply r) := by
  have hanswer : Keeps I (Native.answer r.answer) := by
    cases r.answer with
    | value v => exact .pure v
    | error e => exact .fail e
    | panic payload => exact .throw _
  refine .bind (hI.still fun _ => ⟨rfl, rfl⟩) fun _ => ?_
  dsimp only
  split
  · exact .bind (hI.still fun _ => ⟨rfl, rfl⟩) fun _ => hanswer
  · exact hanswer

theorem native (host : String → List Value → Reply) (operation : Native) (args : List Value) :
    Keeps I (operation.run host args) := by
  unfold Native.run
  split
  · exact .pure _
  · unfold Native.sizeOf
    split
    · exact .ofExcept _
    · exact .fail _
  · exact .pure _
  · exact .bind (.gets _) fun _ => .pure _
  · exact hI.reply _
  · exact .fail _

theorem strict (context : Context) (operation : Strict) (operands : List Value) :
    Keeps I (operation.run context operands) := by
  unfold Strict.run
  split
  · exact .ofExcept _
  · exact .fail _
  · exact .ofExcept _
  · exact .fail _
  · exact .pure _
  · exact .pure _
  · exact hI.native _ _ _

end Definitional

theorem Keeps.evalModuleRef {I : Machine → Prop} (name : ModuleName) :
    Keeps I (Deferral.evalModuleRef name) := by
  refine .bind (.gets _) fun m => ?_
  cases m with
  | none => exact .fail _
  | some m => exact .pure _

theorem Keeps.resolveIn {I : Machine → Prop} (module : Value) (name : String) :
    Keeps I (Deferral.resolveIn module name) := by
  unfold Deferral.resolveIn
  split
  · exact .bind .environment fun _ => .bind (.ofExcept _) fun _ => .pure _
  · exact .fail _

theorem Keeps.raise {I : Machine → Prop} (tag : String) (message : Value) :
    Keeps I (Engine.raise tag message) := by
  unfold Engine.raise
  split
  · exact .bind .environment fun _ => .fail _
  · exact .fail _

/-! ## Promises -/

theorem Definitional.composed {I : Machine → Prop} (hI : Definitional I) : Composed (@Keeps I) where
  pure := .pure
  bind := .bind
  new := hI.still fun _ => ⟨rfl, rfl⟩
  settles _ _ _ := hI.still fun _ => ⟨rfl, rfl⟩
  registers _ _ := hI.still fun _ => ⟨rfl, rfl⟩
  gathers _ := hI.still fun _ => ⟨rfl, rfl⟩
  records _ _ _ := hI.still fun _ => ⟨rfl, rfl⟩

/-! ## Constructs -/

namespace Keeping

variable {I : Machine → Prop} {E : Engine} (h : Keeping I E)
include h

theorem apply (operation : Strict) (operands : List Value) :
    Keeps I (Strict.apply E operation operands) := by
  unfold Strict.apply
  split
  · exact .bind (h.composed.all h.deliver _) fun _ =>
      .bind (h.composed.derive h.deliver _ _) fun _ => .pure _
  · exact h.strict _ _ _

theorem evalItems : ∀ es, Keeps I (E.evalItems es)
  | [] => .pure _
  | e :: es => .bind (h.eval e) fun _ => .bind (evalItems es) fun _ => .pure _

theorem evalInArm (bindings : List (String × Value)) (e : Expr) :
    Keeps I (E.evalInArm bindings e) :=
  h.inFrame (.bind (h.still fun _ => ⟨rfl, rfl⟩) fun _ => h.eval e)

theorem invoke (id : FunctionId) (f : Function) (args : List Value) (location : Option Location) :
    Keeps I (E.invoke id f args location) := by
  unfold Engine.invoke
  split
  · exact .fail _
  · split
    · exact h.apply _ _
    · exact .bind .environment fun _ => .bind (.ofExcept _) fun _ =>
        h.within (.traced (h.eval _) _) _

theorem callValue (callee : Value) (args : List Value) (location : Option Location) :
    Keeps I (E.callValue callee args location) := by
  have hnot : Keeps I (Engine.notCallable callee) := .bind (.written _) fun _ => .fail _
  unfold Engine.callValue
  split
  · refine .bind (.gets _) fun f => ?_
    cases f with
    | none => exact hnot
    | some f => exact h.invoke _ f args location
  · exact hnot

theorem runTask (task : Task) : Keeps I (E.runTask task) :=
  .bind (.contained (h.within (h.callValue _ _ _) _)) fun _ => h.composed.fulfil h.deliver _ _

theorem submit (id : FunctionId) : Keeps I (E.submit id) := by
  have hwait : ∀ task, Keeps I (Engine.enqueue task) := fun _ => h.still fun _ => ⟨rfl, rfl⟩
  refine .bind .environment fun caller => .bind h.composed.new fun target => ?_
  cases E.context.executor with
  | immediate => exact .bind (h.runTask _) fun _ => .pure _
  | queued => exact .bind (hwait _) fun _ => .pure _
  | refusing => exact .bind (h.composed.fulfil h.deliver _ _) fun _ => .pure _
  | deciding atOnce =>
    dsimp only
    split
    · exact .bind (h.runTask _) fun _ => .pure _
    · exact .bind (hwait _) fun _ => .pure _

theorem spawn (v : Value) : Keeps I (E.spawn v) := by
  unfold Engine.spawn
  split
  · refine .bind (.gets _) fun f => ?_
    cases f with
    | none => exact .fail _
    | some f =>
      dsimp only
      split
      · exact h.submit _
      · exact .fail _
  · exact .fail _

theorem bindingValue (pattern : Pattern) (e : Expr) : Keeps I (E.bindingValue pattern e) := by
  unfold Engine.bindingValue
  split
  · exact h.closure _ _ _
  · exact h.eval e

/-! ### Work that waits -/

theorem whenReady (v : Value) (frame : Frame) : Keeps I (E.whenReady v frame) := by
  unfold Engine.whenReady
  split
  · exact .bind .environment fun _ => .bind (h.composed.derive h.deliver _ _) fun _ => .pure _
  · exact h.resume frame _

theorem whenAllReady (vs : List Value) (frame : Frame) {now : List Value → EvalM Value}
    (hnow : ∀ vs, Keeps I (now vs)) : Keeps I (E.whenAllReady vs frame now) := by
  unfold Engine.whenAllReady
  split
  · exact .bind (h.composed.all h.deliver _) fun _ => h.whenReady _ frame
  · exact hnow vs

/-! ### Bindings -/

theorem checkGuards (value : Value) (guards : List Expr) (next : Work) :
    Keeps I (E.checkGuards value guards next) := by
  unfold Engine.checkGuards
  split
  · exact h.proceed next
  · exact .bind (h.eval _) fun v => h.whenReady v _

theorem bindWith (value : Value) (pattern : Pattern) (keys : List Value) (next : Work) :
    Keeps I (E.bindWith value pattern keys next) := by
  refine .bind (.gets _) fun verdict => .bind (.ofExcept verdict) fun found => ?_
  cases found with
  | noMatch => exact .noMatch value
  | pending p => exact h.whenReady _ _
  | matched m => exact .bind (h.still fun _ => ⟨rfl, rfl⟩) fun _ => h.checkGuards value m.guards next

theorem bind (value : Value) (pattern : Pattern) (next : Work) :
    Keeps I (E.bind value pattern next) :=
  .bind (h.evalItems _) fun keys => h.whenAllReady keys _ fun keys =>
    h.bindWith value pattern keys next

theorem evalLet (bindings : List (Pattern × Expr)) (body : Expr) :
    Keeps I (E.evalLet bindings body) := by
  unfold Engine.evalLet
  split
  · exact h.eval body
  · exact .bind (h.bindingValue _ _) fun v => h.bind v _ _

theorem evalBlock (steps : List Step) : Keeps I (E.evalBlock steps) := by
  unfold Engine.evalBlock
  split
  · exact .pure _
  · exact h.eval _
  · exact .bind (h.eval _) fun v => h.whenReady v _
  · exact .bind (h.eval _) fun v => h.bind v _ _
  · exact .bind (h.eval _) fun v => h.bind v _ _

/-! ### Selections -/

theorem choose (trial : Trial) (bindings : List (String × Value))
    (alternatives : List (Option Expr × Expr)) : Keeps I (E.choose trial bindings alternatives) := by
  unfold Engine.choose
  split
  · exact h.proceed trial.next
  · exact h.evalInArm _ _
  · exact .bind (h.evalInArm _ _) fun v => h.whenReady v _

theorem checkArmGuards (trial : Trial) (bindings : List (String × Value)) (guards : List Expr) :
    Keeps I (E.checkArmGuards trial bindings guards) := by
  unfold Engine.checkArmGuards
  split
  · exact h.choose _ _ _
  · exact .bind (h.evalInArm _ _) fun v => h.whenReady v _

theorem tryArm (trial : Trial) (keys : List Value) : Keeps I (E.tryArm trial keys) := by
  refine .bind (.gets _) fun verdict => .bind (.ofExcept verdict) fun found => ?_
  cases found with
  | noMatch => exact h.proceed trial.next
  | pending p => exact h.whenReady _ _
  | matched m => exact h.checkArmGuards trial m.bindings m.guards

theorem select (value : Value) (arms : List Arm) (unmatched : Unmatched) :
    Keeps I (E.select value arms unmatched) := by
  unfold Engine.select
  split
  · split
    · exact .noMatch value
    · exact .fail _
  · exact .bind (h.evalItems _) fun keys => h.whenAllReady keys _ fun keys => h.tryArm _ keys

theorem recover (e : Error) (arms : List Arm) : Keeps I (E.recover e arms) :=
  .bind (.written _) fun _ => h.select _ _ _

theorem evalAttempt (body : Expr) (arms : List Arm) : Keeps I (E.evalAttempt body arms) := by
  refine .bind (.outcome (h.inFrame (h.eval body))) fun outcome => ?_
  split
  · exact .bind .environment fun _ => .bind (h.composed.derive h.deliver _ _) fun _ => .pure _
  · exact .pure _
  · split
    · exact h.recover _ arms
    · exact .fail _

/-! ### One more level -/

theorem evalKind (e : Expr) : Keeps I (E.evalKind e) := by
  cases e with
  | literal v => exact .pure v
  | identifier name =>
    refine .bind .environment fun env => ?_
    split
    · exact .pure _
    · exact .fail _
  | tuple items => exact .bind (h.evalItems items) fun _ => .pure _
  | sequence items => exact .bind (h.evalItems items) fun _ => .pure _
  | set items => exact .bind (h.evalItems items) fun _ => h.apply _ _
  | dict entries => exact .bind (h.evalItems _) fun _ => h.apply _ _
  | binary op left right =>
    simp only [Engine.evalKind]
    split
    · exact .bind (h.eval left) fun l => h.whenReady l _
    · exact .bind (h.eval left) fun l => h.whenReady l _
    · exact .bind (h.eval left) fun _ => .bind (h.eval right) fun _ => h.apply _ _
  | unary op operand => exact .bind (h.eval operand) fun _ => h.apply _ _
  | branch condition onTrue onFalse => exact .bind (h.eval condition) fun c => h.whenReady c _
  | letIn bindings body => exact h.inFrame (h.evalLet bindings body)
  | block steps => exact h.inFrame (h.evalBlock steps)
  | select scrutinee arms => exact .bind (h.eval scrutinee) fun v => h.select v arms _
  | lambda name params body => exact h.closure _ _ _
  | call callee args location =>
    exact .bind (h.eval callee) fun f => .bind (h.evalItems args) fun _ => h.whenReady f _
  | moduleDecl name exports functions => exact h.declared name exports functions
  | moduleRef name => exact .evalModuleRef name
  | functionRef module name => exact .bind (h.eval module) fun m => h.whenReady m _
  | spawn function => exact .bind (h.eval function) fun f => h.whenReady f _
  | raise tag message => exact .bind (h.eval message) fun v => h.whenReady v _
  | attempt body arms => exact h.evalAttempt body arms

theorem evalStep (e : Expr) : Keeps I (E.evalStep e) := by
  refine .bind (.gets _) fun interrupted => ?_
  split
  · exact .fail _
  · exact h.evalKind e

theorem proceedStep (w : Work) : Keeps I (E.proceedStep w) := by
  cases w with
  | letIn bindings body => exact h.evalLet bindings body
  | block steps => exact h.evalBlock steps
  | yield v => exact .pure v
  | select value arms unmatched => exact h.select value arms unmatched

theorem connectiveLeft (op : BinaryOp) (right : Expr) (left : Value) :
    Keeps I (E.connectiveLeft op right left) := by
  unfold Engine.connectiveLeft
  split
  · exact .pure _
  · exact .pure _
  · exact .bind (h.eval right) fun r => h.whenReady r _
  · exact .fail _

theorem resumeStep (frame : Frame) (v : Value) : Keeps I (E.resumeStep frame v) := by
  cases frame with
  | branch onTrue onFalse =>
    simp only [Engine.resumeStep]
    split
    · exact h.eval onTrue
    · exact h.eval onFalse
    · exact .fail _
  | connectiveLeft op right => exact h.connectiveLeft op right v
  | connectiveRight op =>
    simp only [Engine.resumeStep]
    split
    · exact .pure _
    · exact .fail _
  | andThen next => exact h.proceed next
  | bindKeys value pattern next => exact h.bindWith value pattern _ next
  | bindRetry value pattern keys next => exact h.bindWith value pattern keys next
  | bindGuard value guards next =>
    refine .bind (.ofExcept _) fun holds => ?_
    split
    · exact h.checkGuards value guards next
    · exact .noMatch value
  | armKeys trial => exact h.tryArm trial _
  | armRetry trial keys => exact h.tryArm trial keys
  | armGuard trial bindings guards =>
    refine .bind (.ofExcept _) fun holds => ?_
    split
    · exact h.checkArmGuards trial bindings guards
    · exact h.proceed trial.next
  | alternative trial bindings body others =>
    refine .bind (.ofExcept _) fun holds => ?_
    split
    · exact h.evalInArm bindings body
    · exact h.choose trial bindings others
  | call args location => exact h.callValue v args location
  | spawn => exact h.spawn v
  | functionRef name => exact .resolveIn v name
  | raise tag => exact .raise tag v

theorem handle (handler : Handler) (o : Outcome) : Keeps I (E.handle handler o) := by
  cases handler with
  | resume frame env =>
    cases o with
    | ok v => exact .outcome (h.within (h.resume frame v) env)
    | error e => exact .pure _
  | compute operation =>
    cases o with
    | ok v => exact .outcome (h.strict _ operation _)
    | error e => exact .pure _
  | recover arms env =>
    cases o with
    | ok v => exact .pure _
    | error e =>
      simp only [Engine.handle]
      split
      · exact .outcome (h.within (h.recover e arms) env)
      · exact .pure _
  | apply function env =>
    cases o with
    | ok v => exact .outcome (h.within (h.whenReady function _) env)
    | error e => exact .pure _
  | applyEither function env =>
    exact .bind (.written _) fun _ => .outcome (h.within (h.whenReady function _) env)
  | report label =>
    exact .bind (.gets _) fun _ => .bind (h.still fun _ => ⟨rfl, rfl⟩) fun _ => .pure _

theorem step : Keeping I E.step where
  toDefinitional := h.toDefinitional
  eval := h.evalStep
  proceed := h.proceedStep
  resume := h.resumeStep
  deliver := h.composed.deliverStep h.deliver h.handle

end Keeping

/-- Every run of the evaluator keeps an invariant of what is defined, with whatever fuel. -/
theorem Definitional.engine {I : Machine → Prop} (hI : Definitional I) (context : Context)
    (fuel : Nat) : Keeping I (engine context fuel) := by
  induction fuel with
  | zero => exact ⟨hI, fun _ => .throw _, fun _ => .throw _, fun _ _ => .throw _, fun _ _ => .throw _⟩
  | succ fuel ih =>
    rw [engine_succ]
    exact ih.step

end Deferral
