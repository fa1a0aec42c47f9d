import Deferral.Proofs.Renaming.Code

/-!
# Work with other identities

Renaming the environments that code is run in, the functions and modules that it finds there, and what
evaluation leaves to promises: work, frames, handlers and continuations. A body is run in the renamed
environment (`bodyEnvironment_rename`), and names resolve to the renamed functions
(`Module.resolve_rename`).
-/

set_option autoImplicit false

namespace Deferral

variable (r : Renaming)

/-! ## Environments -/

/-- The binding with the identities in its value renamed. -/
def Binding.rename (b : Binding) : Binding := { b with value := b.value.rename r }

/-- The environment with the identities in its bindings renamed. -/
def Environment.rename (env : Environment) : Environment :=
  { env with bindings := env.bindings.map (Binding.rename r) }

namespace Environment

variable (env : Environment)

@[simp] theorem calls_rename : (env.rename r).calls = env.calls := rfl

@[simp] theorem module_rename : (env.rename r).module = env.module := rfl

theorem openFrame_rename : env.openFrame.rename r = (env.rename r).openFrame := by
  simp only [openFrame, rename, List.length_map]

theorem closeFrame_rename : env.closeFrame.rename r = (env.rename r).closeFrame := by
  unfold closeFrame
  cases hframes : env.frames with
  | nil => simp only [rename, hframes]
  | cons start outer => simp only [rename, hframes, List.length_map, List.map_drop]

theorem enterCall_rename (frame : StackFrame) (max : Nat) :
    (env.rename r).enterCall frame max = renameResult r (rename r) (env.enterCall frame max) := by
  by_cases hroom : max ≤ env.callDepth
  · rw [enterCall, enterCall, if_pos hroom, if_pos (show max ≤ (env.rename r).callDepth from hroom)]
    rfl
  · rw [enterCall, enterCall, if_neg hroom, if_neg (show ¬max ≤ (env.rename r).callDepth from hroom)]
    rfl

theorem defineAll_rename (bindings : List (String × Value)) :
    (env.defineAll bindings).rename r = (env.rename r).defineAll (renameBindings r bindings) := by
  induction bindings generalizing env with
  | nil => rfl
  | cons b rest ih => exact ih (env.define b.1 b.2)

theorem binding?_rename (name : String) :
    (env.rename r).binding? name = (env.binding? name).map (Binding.rename r) := by
  simp only [binding?, rename, List.find?_map]
  rfl

theorem get?_rename (name : String) :
    (env.rename r).get? name = (env.get? name).map (Value.rename r) := by
  simp only [get?, binding?_rename, Option.map_map]
  rfl

theorem getUser?_rename (name : String) :
    (env.rename r).getUser? name = (env.getUser? name).map (Value.rename r) := by
  unfold getUser?
  rw [binding?_rename]
  cases env.binding? name with
  | none => rfl
  | some b =>
    simp only [Option.map_some, Binding.rename]
    split <;> rfl

end Environment

/-! ## Functions and modules -/

def FunctionBody.rename : FunctionBody → FunctionBody
  | .code params body => .code params (body.rename r)
  | .native operation arity => .native operation arity

/-- The function with the identities in its code, its captures and its module renamed. -/
def Function.rename (f : Function) : Function :=
  ⟨f.name, f.body.rename r, f.captures.map (Binding.rename r), f.module.map (Module.rename r)⟩

namespace Function

variable (f : Function)

@[simp] theorem params_rename : (f.rename r).params = f.params := by
  obtain ⟨name, body, captures, module⟩ := f
  cases body <;> rfl

@[simp] theorem arity_rename : (f.rename r).arity = f.arity := by
  obtain ⟨name, body, captures, module⟩ := f
  cases body <;> rfl

@[simp] theorem isNative_rename : (f.rename r).isNative = f.isNative := by
  obtain ⟨name, body, captures, module⟩ := f
  cases body <;> rfl

@[simp] theorem qualifiedName_rename : (f.rename r).qualifiedName = f.qualifiedName := by
  obtain ⟨name, body, captures, module⟩ := f
  cases module <;> rfl

@[simp] theorem label_rename : (f.rename r).label = f.label := by
  simp only [label, isNative_rename, qualifiedName_rename, arity_rename]

theorem callFrame_rename (location : Option Location) :
    callFrame (f.rename r) location = callFrame f location := by
  simp only [callFrame, qualifiedName_rename]

/-- A renamed function loses its module as the function does. -/
theorem standing_rename {present present' : Module → Bool}
    (h : ∀ module : Module, present' (module.rename r) = present module) :
    (f.rename r).standing present' = (f.standing present).rename r := by
  have hpresent : present' ∘ Module.rename r = present := funext h
  simp only [standing, rename, Option.filter_map, hpresent]

end Function

theorem bindSelf_rename (id : FunctionId) (f : Function) (env : Environment) :
    bindSelf (r.function id) (f.rename r) (env.rename r) = (bindSelf id f env).rename r := by
  obtain ⟨name, body, captures, module⟩ := f
  cases module with
  | none =>
    by_cases hname : (name == anonymousName) = true
    · simp only [bindSelf, Function.rename, Option.map_none, hname, if_true]
    · simp only [bindSelf, Function.rename, Option.map_none, hname]
      rfl
  | some m =>
    have h := env.defineAll_rename r (m.functions.map fun g => (g.1, .function g.2))
    simp only [renameBindings, List.map_map] at h
    simp only [bindSelf, Function.rename, Option.map_some, Module.rename, List.map_map]
    exact congrArg (fun e : Environment => { e with module := some m.name }) h.symm

/-- A renamed function runs its body in the renamed environment. -/
theorem bodyEnvironment_rename (max : Nat) (id : FunctionId) (f : Function) (args : List Value)
    (location : Option Location) (caller : Environment) :
    bodyEnvironment max (r.function id) (f.rename r) (args.map (Value.rename r)) location
        (caller.rename r) =
      renameResult r (Environment.rename r) (bodyEnvironment max id f args location caller) := by
  have hargs : f.params.zip (args.map (Value.rename r)) = renameBindings r (f.params.zip args) :=
    List.zip_map_right ..
  unfold bodyEnvironment
  rw [Function.callFrame_rename, Function.params_rename, hargs]
  rw [show Environment.forCall (f.rename r).captures (caller.rename r) =
    (Environment.forCall f.captures caller).rename r from rfl, Environment.enterCall_rename]
  refine renameResult_bind fun env => congrArg Except.ok ?_
  rw [Environment.defineAll_rename, bindSelf_rename]

namespace Module

variable (m : Module) (name : String)

theorem find?_rename : (m.rename r).find? name = (m.find? name).map r.function :=
  lookup_map_snd r.function m.functions name

theorem isExported_rename : (m.rename r).isExported name = m.isExported name := rfl

theorem resolveInternal_rename : (m.rename r).resolveInternal name =
    renameResult r r.function (m.resolveInternal name) := by
  unfold resolveInternal
  rw [find?_rename]
  cases m.find? name <;> rfl

theorem resolve_rename :
    (m.rename r).resolve name = renameResult r r.function (m.resolve name) := by
  unfold resolve
  rw [resolveInternal_rename]
  cases m.resolveInternal name with
  | error e => rfl
  | ok id =>
    by_cases hexported : m.isExported name = true
    · simp only [renameResult, isExported_rename, hexported, if_true]
    · simp only [renameResult, isExported_rename, hexported]
      rfl

section

variable (name : ModuleName) (exports : List String) (functions : List (String × FunctionId))

/-- The names of functions do not change. -/
theorem names_rename :
    (functions.map fun g => (g.1, r.function g.2)).map (·.1) = functions.map (·.1) := by
  rw [List.map_map]
  rfl

theorem rename_of_checkExports {defined : List String} {e : Error}
    (h : checkExports name exports defined = .error e) : e.rename r = e := by
  unfold checkExports at h
  split at h
  · cases h
    rfl
  · cases h

theorem rename_of_checkDistinct {declared : List String} {e : Error}
    (h : checkDistinct name declared = .error e) : e.rename r = e := by
  unfold checkDistinct at h
  split at h
  · cases h
    rfl
  · cases h

/-- Whether a module can be declared depends on names alone. -/
theorem declare_rename : declare name exports (functions.map fun g => (g.1, r.function g.2)) =
    renameResult r (Module.rename r) (declare name exports functions) := by
  simp only [declare, names_rename]
  cases hexports : checkExports name (distinct exports) (functions.map (·.1)) with
  | error e => exact congrArg Except.error (rename_of_checkExports r _ _ hexports).symm
  | ok _ =>
    cases hdistinct : checkDistinct name (functions.map (·.1)) with
    | error e => exact congrArg Except.error (rename_of_checkDistinct r _ hdistinct).symm
    | ok _ => rfl

end

end Module

namespace Registry

variable (registry : Registry)

/-- The registry with the functions of its modules renamed. -/
abbrev rename : Registry := registry.map (Module.rename r)

theorem get?_rename (name : ModuleName) :
    (registry.rename r).get? name = (registry.get? name).map (Module.rename r) := by
  simp only [get?, rename, List.find?_map]
  rfl

theorem register_rename (m : Module) :
    (registry.rename r).register (m.rename r) = (registry.register m).rename r := by
  induction registry with
  | nil => rfl
  | cons n rest ih =>
    by_cases hname : (n.name == m.name) = true
    · simp only [rename, List.map_cons, register, Module.name_rename, hname, if_true]
    · simp only [rename] at ih
      simp only [rename, List.map_cons, register, Module.name_rename, hname, Bool.false_eq_true,
        if_false, ih]

end Registry

/-! ## What is left to do -/

def Unmatched.rename : Unmatched → Unmatched
  | .noMatch => .noMatch
  | .rethrow e => .rethrow (e.rename r)

def Work.rename : Work → Work
  | .letIn bindings body => .letIn (Expr.renameBindings r bindings) (body.rename r)
  | .block steps => .block (Expr.renameSteps r steps)
  | .yield v => .yield (v.rename r)
  | .select value arms unmatched =>
    .select (value.rename r) (Expr.renameArms r arms) (unmatched.rename r)

def Trial.rename (t : Trial) : Trial :=
  ⟨t.value.rename r, t.arm.rename r, Expr.renameArms r t.later, t.unmatched.rename r⟩

def Frame.rename : Frame → Frame
  | .branch onTrue onFalse => .branch (onTrue.rename r) (onFalse.rename r)
  | .connectiveLeft op right => .connectiveLeft op (right.rename r)
  | .connectiveRight op => .connectiveRight op
  | .andThen next => .andThen (next.rename r)
  | .bindKeys value pattern next => .bindKeys (value.rename r) (pattern.rename r) (next.rename r)
  | .bindRetry value pattern keys next =>
    .bindRetry (value.rename r) (pattern.rename r) (keys.map (Value.rename r)) (next.rename r)
  | .bindGuard value guards next =>
    .bindGuard (value.rename r) (guards.map (Expr.rename r)) (next.rename r)
  | .armKeys trial => .armKeys (trial.rename r)
  | .armRetry trial keys => .armRetry (trial.rename r) (keys.map (Value.rename r))
  | .armGuard trial bindings guards =>
    .armGuard (trial.rename r) (renameBindings r bindings) (guards.map (Expr.rename r))
  | .alternative trial bindings body others =>
    .alternative (trial.rename r) (renameBindings r bindings) (body.rename r)
      (Arm.renameAlternatives r others)
  | .call args location => .call (args.map (Value.rename r)) location
  | .spawn => .spawn
  | .functionRef name => .functionRef name
  | .raise tag => .raise tag

def Handler.rename : Handler → Handler
  | .resume frame env => .resume (frame.rename r) (env.rename r)
  | .compute operation => .compute operation
  | .recover arms env => .recover (Expr.renameArms r arms) (env.rename r)
  | .apply function env => .apply (function.rename r) (env.rename r)
  | .applyEither function env => .applyEither (function.rename r) (env.rename r)
  | .report label => .report label

def Continuation.rename : Continuation Handler → Continuation Handler
  | .adopt target => .adopt (r.promise target)
  | .derive target handler => .derive (r.promise target) (handler.rename r)
  | .gather id place => .gather (r.gather id) place
  | .notify handler => .notify (handler.rename r)

def Gather.rename (g : Gather) : Gather :=
  { g with values := g.values.map (Value.rename r), result := r.promise g.result }

def Task.rename (t : Task) : Task :=
  ⟨r.function t.function, t.caller.rename r, r.promise t.target⟩

/-- A gather takes a renamed outcome as it takes the outcome. -/
theorem Gather.record_rename (g : Gather) (place : Nat) (o : Outcome) :
    (g.rename r).record place (o.rename r) =
      ((g.record place o).1.rename r, (g.record place o).2.map (Outcome.rename r)) := by
  obtain ⟨values, remaining, done, result⟩ := g
  cases done with
  | true => rfl
  | false =>
    cases o with
    | error e => rfl
    | ok v =>
      have hset : (values.map (Value.rename r)).set place (v.rename r) =
          (values.set place v).map (Value.rename r) := List.map_set.symm
      by_cases hlast : remaining - 1 = 0
      · simp only [record, rename, renameResult, Bool.false_eq_true, if_false, hset, if_pos hlast,
          Option.map_some, Value.rename_tuple]
      · simp only [record, rename, renameResult, Bool.false_eq_true, if_false, hset, if_neg hlast,
          Option.map_none]

theorem Promise.places_rename (i : Nat) (vs : List Value) :
    places i (vs.map (Value.rename r)) = (places i vs).map fun a => (a.1, r.promise a.2) := by
  induction vs generalizing i with
  | nil => rfl
  | cons v rest ih => cases v <;> simp [places, Value.rename, ih]

end Deferral
