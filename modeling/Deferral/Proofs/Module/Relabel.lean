import Deferral.Eval.Step
import Deferral.Proofs.Pattern.MapParts

/-!
# References written with their owner

A piece of code has an *owner*: the module whose function it is the body of, or none if it is the body
of a lambda or what a host evaluates. `Expr.relabel` writes each qualified name anew, in a way that may
depend on the owner of the code it stands in, and leaves everything else as it is. The owner changes
where a lambda or a declaration is entered, and nowhere else.

Work and frames are relabelled with the code in them. Code runs as code of its owner, as long as that
is there: a function that has lost its module runs as code of none. So what a handler is relabelled to
does not follow from the handler, and is a relation (`Rewriting.Rewrites`).
-/

set_option autoImplicit false

namespace Deferral

/-- How a qualified name is written, by the owner of the code it stands in. -/
abbrev Labelling := Option ModuleName → String → String

variable (label : Labelling) (owner : Option ModuleName)

/-! ## Expressions -/

mutual

/-- Writes the qualified names in code of an owner anew. -/
def Expr.relabel (label : Labelling) : Option ModuleName → Expr → Expr
  | _, .literal v => .literal v
  | _, .identifier name => .identifier name
  | owner, .tuple items => .tuple (Expr.relabelItems label owner items)
  | owner, .sequence items => .sequence (Expr.relabelItems label owner items)
  | owner, .set items => .set (Expr.relabelItems label owner items)
  | owner, .dict entries => .dict (Expr.relabelEntries label owner entries)
  | owner, .binary op left right => .binary op (left.relabel label owner) (right.relabel label owner)
  | owner, .unary op operand => .unary op (operand.relabel label owner)
  | owner, .branch condition onTrue onFalse =>
    .branch (condition.relabel label owner) (onTrue.relabel label owner) (onFalse.relabel label owner)
  | owner, .letIn bindings body =>
    .letIn (Expr.relabelBindings label owner bindings) (body.relabel label owner)
  | owner, .block steps => .block (Expr.relabelSteps label owner steps)
  | owner, .select scrutinee arms =>
    .select (scrutinee.relabel label owner) (Expr.relabelArms label owner arms)
  | _, .lambda name params body => .lambda name params (body.relabel label none)
  | owner, .call callee args location =>
    .call (callee.relabel label owner) (Expr.relabelItems label owner args) location
  | _, .moduleDecl name exports functions =>
    .moduleDecl name exports (Expr.relabelFunctions label (some name) functions)
  | _, .moduleRef name => .moduleRef name
  | owner, .functionRef module name => .functionRef (module.relabel label owner) (label owner name)
  | owner, .spawn function => .spawn (function.relabel label owner)
  | owner, .raise tag message => .raise tag (message.relabel label owner)
  | owner, .attempt body arms =>
    .attempt (body.relabel label owner) (Expr.relabelArms label owner arms)
termination_by structural _ e => e

def Expr.relabelItems (label : Labelling) : Option ModuleName → List Expr → List Expr
  | _, [] => []
  | owner, e :: rest => e.relabel label owner :: Expr.relabelItems label owner rest
termination_by structural _ es => es

def Expr.relabelEntries (label : Labelling) :
    Option ModuleName → List (Expr × Expr) → List (Expr × Expr)
  | _, [] => []
  | owner, e :: rest => Expr.relabelEntry label owner e :: Expr.relabelEntries label owner rest
termination_by structural _ es => es

def Expr.relabelEntry (label : Labelling) : Option ModuleName → Expr × Expr → Expr × Expr
  | owner, (key, value) => (key.relabel label owner, value.relabel label owner)
termination_by structural _ e => e

def Expr.relabelBindings (label : Labelling) :
    Option ModuleName → List (Pattern × Expr) → List (Pattern × Expr)
  | _, [] => []
  | owner, b :: rest => Expr.relabelBinding label owner b :: Expr.relabelBindings label owner rest
termination_by structural _ bs => bs

def Expr.relabelBinding (label : Labelling) : Option ModuleName → Pattern × Expr → Pattern × Expr
  | owner, (pattern, e) => (pattern.relabel label owner, e.relabel label owner)
termination_by structural _ b => b

def Expr.relabelSteps (label : Labelling) : Option ModuleName → List Step → List Step
  | _, [] => []
  | owner, step :: rest => step.relabel label owner :: Expr.relabelSteps label owner rest
termination_by structural _ steps => steps

def Expr.relabelArms (label : Labelling) : Option ModuleName → List Arm → List Arm
  | _, [] => []
  | owner, arm :: rest => arm.relabel label owner :: Expr.relabelArms label owner rest
termination_by structural _ arms => arms

def Expr.relabelFunctions (label : Labelling) :
    Option ModuleName → List FunctionDecl → List FunctionDecl
  | _, [] => []
  | owner, d :: rest => d.relabel label owner :: Expr.relabelFunctions label owner rest
termination_by structural _ ds => ds

def Pattern.relabel (label : Labelling) : Option ModuleName → Pattern → Pattern
  | _, .wildcard => .wildcard
  | _, .literal v => .literal v
  | _, .bind name => .bind name
  | owner, .alias name inner => .alias name (inner.relabel label owner)
  | owner, .tuple items => .tuple (Pattern.relabelItems label owner items)
  | owner, .sequence items => .sequence (Pattern.relabelItems label owner items)
  | owner, .cons front rest back =>
    .cons (Pattern.relabelItems label owner front) (rest.relabel label owner)
      (Pattern.relabelItems label owner back)
  | owner, .dict entries => .dict (Pattern.relabelEntries label owner entries)
  | owner, .guarded inner guard => .guarded (inner.relabel label owner) (guard.relabel label owner)
termination_by structural _ p => p

def Pattern.relabelItems (label : Labelling) : Option ModuleName → List Pattern → List Pattern
  | _, [] => []
  | owner, p :: rest => p.relabel label owner :: Pattern.relabelItems label owner rest
termination_by structural _ ps => ps

def Pattern.relabelEntries (label : Labelling) :
    Option ModuleName → List (Expr × Pattern) → List (Expr × Pattern)
  | _, [] => []
  | owner, e :: rest => Pattern.relabelEntry label owner e :: Pattern.relabelEntries label owner rest
termination_by structural _ es => es

def Pattern.relabelEntry (label : Labelling) : Option ModuleName → Expr × Pattern → Expr × Pattern
  | owner, (key, p) => (key.relabel label owner, p.relabel label owner)
termination_by structural _ e => e

def Step.relabel (label : Labelling) : Option ModuleName → Step → Step
  | owner, .bind pattern e => .bind (pattern.relabel label owner) (e.relabel label owner)
  | owner, .run e => .run (e.relabel label owner)
termination_by structural _ step => step

def Arm.relabel (label : Labelling) : Option ModuleName → Arm → Arm
  | owner, .mk pattern alternatives =>
    .mk (pattern.relabel label owner) (Arm.relabelAlternatives label owner alternatives)
termination_by structural _ arm => arm

def Arm.relabelAlternatives (label : Labelling) :
    Option ModuleName → List (Option Expr × Expr) → List (Option Expr × Expr)
  | _, [] => []
  | owner, a :: rest => Arm.relabelAlternative label owner a :: Arm.relabelAlternatives label owner rest
termination_by structural _ as => as

def Arm.relabelAlternative (label : Labelling) :
    Option ModuleName → Option Expr × Expr → Option Expr × Expr
  | owner, (guard, body) => (Arm.relabelGuard label owner guard, body.relabel label owner)
termination_by structural _ a => a

def Arm.relabelGuard (label : Labelling) : Option ModuleName → Option Expr → Option Expr
  | _, none => none
  | owner, some guard => some (guard.relabel label owner)
termination_by structural _ guard => guard

def FunctionDecl.relabel (label : Labelling) : Option ModuleName → FunctionDecl → FunctionDecl
  | owner, .mk name params body => .mk name params (body.relabel label owner)
termination_by structural _ d => d

end

theorem Expr.relabelItems_eq (items : List Expr) :
    Expr.relabelItems label owner items = items.map (Expr.relabel label owner) := by
  induction items with
  | nil => rfl
  | cons e rest ih => rw [Expr.relabelItems, ih, List.map_cons]

theorem Expr.flatten_relabelEntries (entries : List (Expr × Expr)) :
    Engine.flatten (Expr.relabelEntries label owner entries) =
      (Engine.flatten entries).map (Expr.relabel label owner) := by
  induction entries with
  | nil => rfl
  | cons e rest ih =>
    obtain ⟨key, value⟩ := e
    simp only [Expr.relabelEntries, Expr.relabelEntry, Engine.flatten, ih, List.map_cons]

mutual

theorem Pattern.relabel_eq_mapParts :
    ∀ p : Pattern, p.relabel label owner = p.mapParts (Expr.relabel label owner)
  | .wildcard => rfl
  | .literal _ => rfl
  | .bind _ => rfl
  | .alias _ inner => by rw [Pattern.relabel, mapParts, relabel_eq_mapParts inner]
  | .tuple items => by rw [Pattern.relabel, mapParts, relabelItems_eq_mapItems items]
  | .sequence items => by rw [Pattern.relabel, mapParts, relabelItems_eq_mapItems items]
  | .cons front rest back => by
    rw [Pattern.relabel, mapParts, relabelItems_eq_mapItems front, relabel_eq_mapParts rest,
      relabelItems_eq_mapItems back]
  | .dict entries => by rw [Pattern.relabel, mapParts, relabelEntries_eq_mapEntries entries]
  | .guarded inner _ => by rw [Pattern.relabel, mapParts, relabel_eq_mapParts inner]
termination_by structural p => p

theorem Pattern.relabelItems_eq_mapItems : ∀ ps : List Pattern,
    Pattern.relabelItems label owner ps = mapItems (Expr.relabel label owner) ps
  | [] => rfl
  | p :: rest => by
    rw [Pattern.relabelItems, mapItems, relabel_eq_mapParts p, relabelItems_eq_mapItems rest]
termination_by structural ps => ps

theorem Pattern.relabelEntries_eq_mapEntries : ∀ es : List (Expr × Pattern),
    Pattern.relabelEntries label owner es = mapEntries (Expr.relabel label owner) es
  | [] => rfl
  | e :: rest => by
    rw [Pattern.relabelEntries, mapEntries, relabelEntry_eq_mapEntry e,
      relabelEntries_eq_mapEntries rest]
termination_by structural es => es

theorem Pattern.relabelEntry_eq_mapEntry : ∀ e : Expr × Pattern,
    Pattern.relabelEntry label owner e = mapEntry (Expr.relabel label owner) e
  | (_, p) => by rw [Pattern.relabelEntry, mapEntry, relabel_eq_mapParts p]
termination_by structural e => e

end

theorem Pattern.keys_relabel (p : Pattern) :
    (p.relabel label owner).keys = Expr.relabelItems label owner p.keys := by
  rw [relabel_eq_mapParts, keys_mapParts, Expr.relabelItems_eq]

/-- A relabelled pattern matches as the pattern does. -/
theorem Pattern.matching_relabel (sight : Sight) (p : Pattern) (value : Value) (keys : List Value) :
    (p.relabel label owner).matching sight value keys =
      (p.matching sight value keys).map (Matching.mapGuards (Expr.relabel label owner)) := by
  rw [relabel_eq_mapParts, matching_mapParts]

theorem Arm.pattern_relabel (arm : Arm) :
    (arm.relabel label owner).pattern = arm.pattern.relabel label owner := by
  cases arm; rfl

theorem Arm.alternatives_relabel (arm : Arm) :
    (arm.relabel label owner).alternatives =
      Arm.relabelAlternatives label owner arm.alternatives := by
  cases arm; rfl

/-! ## Names that stay

The labelling that writes every name as it is changes nothing. -/

/-- Writes every name as it is. -/
def Labelling.plain : Labelling := fun _ name => name

mutual

theorem Expr.relabel_plain : ∀ (e : Expr) (owner : Option ModuleName),
    e.relabel .plain owner = e
  | .literal _, _ => rfl
  | .identifier _, _ => rfl
  | .tuple items, owner => by rw [Expr.relabel, Expr.relabelItems_plain items]
  | .sequence items, owner => by rw [Expr.relabel, Expr.relabelItems_plain items]
  | .set items, owner => by rw [Expr.relabel, Expr.relabelItems_plain items]
  | .dict entries, owner => by rw [Expr.relabel, Expr.relabelEntries_plain entries]
  | .binary op left right, owner => by
    rw [Expr.relabel, Expr.relabel_plain left, Expr.relabel_plain right]
  | .unary op operand, owner => by rw [Expr.relabel, Expr.relabel_plain operand]
  | .branch condition onTrue onFalse, owner => by
    rw [Expr.relabel, Expr.relabel_plain condition, Expr.relabel_plain onTrue,
      Expr.relabel_plain onFalse]
  | .letIn bindings body, owner => by
    rw [Expr.relabel, Expr.relabelBindings_plain bindings, Expr.relabel_plain body]
  | .block steps, owner => by rw [Expr.relabel, Expr.relabelSteps_plain steps]
  | .select scrutinee arms, owner => by
    rw [Expr.relabel, Expr.relabel_plain scrutinee, Expr.relabelArms_plain arms]
  | .lambda name params body, owner => by rw [Expr.relabel, Expr.relabel_plain body]
  | .call callee args location, owner => by
    rw [Expr.relabel, Expr.relabel_plain callee, Expr.relabelItems_plain args]
  | .moduleDecl name exports functions, owner => by
    rw [Expr.relabel, Expr.relabelFunctions_plain functions]
  | .moduleRef _, _ => rfl
  | .functionRef module name, owner => by rw [Expr.relabel, Expr.relabel_plain module, Labelling.plain]
  | .spawn function, owner => by rw [Expr.relabel, Expr.relabel_plain function]
  | .raise tag message, owner => by rw [Expr.relabel, Expr.relabel_plain message]
  | .attempt body arms, owner => by
    rw [Expr.relabel, Expr.relabel_plain body, Expr.relabelArms_plain arms]
termination_by structural e => e

theorem Expr.relabelItems_plain : ∀ (es : List Expr) (owner : Option ModuleName),
    Expr.relabelItems .plain owner es = es
  | [], _ => rfl
  | e :: rest, owner => by rw [Expr.relabelItems, Expr.relabel_plain e, Expr.relabelItems_plain rest]
termination_by structural es => es

theorem Expr.relabelEntries_plain : ∀ (es : List (Expr × Expr)) (owner : Option ModuleName),
    Expr.relabelEntries .plain owner es = es
  | [], _ => rfl
  | e :: rest, owner => by
    rw [Expr.relabelEntries, Expr.relabelEntry_plain e, Expr.relabelEntries_plain rest]
termination_by structural es => es

theorem Expr.relabelEntry_plain : ∀ (e : Expr × Expr) (owner : Option ModuleName),
    Expr.relabelEntry .plain owner e = e
  | (key, value), owner => by rw [Expr.relabelEntry, Expr.relabel_plain key, Expr.relabel_plain value]
termination_by structural e => e

theorem Expr.relabelBindings_plain : ∀ (bs : List (Pattern × Expr)) (owner : Option ModuleName),
    Expr.relabelBindings .plain owner bs = bs
  | [], _ => rfl
  | b :: rest, owner => by
    rw [Expr.relabelBindings, Expr.relabelBinding_plain b, Expr.relabelBindings_plain rest]
termination_by structural bs => bs

theorem Expr.relabelBinding_plain : ∀ (b : Pattern × Expr) (owner : Option ModuleName),
    Expr.relabelBinding .plain owner b = b
  | (pattern, e), owner => by
    rw [Expr.relabelBinding, Pattern.relabel_plain pattern, Expr.relabel_plain e]
termination_by structural b => b

theorem Expr.relabelSteps_plain : ∀ (steps : List Step) (owner : Option ModuleName),
    Expr.relabelSteps .plain owner steps = steps
  | [], _ => rfl
  | step :: rest, owner => by
    rw [Expr.relabelSteps, Step.relabel_plain step, Expr.relabelSteps_plain rest]
termination_by structural steps => steps

theorem Expr.relabelArms_plain : ∀ (arms : List Arm) (owner : Option ModuleName),
    Expr.relabelArms .plain owner arms = arms
  | [], _ => rfl
  | arm :: rest, owner => by rw [Expr.relabelArms, Arm.relabel_plain arm, Expr.relabelArms_plain rest]
termination_by structural arms => arms

theorem Expr.relabelFunctions_plain : ∀ (ds : List FunctionDecl) (owner : Option ModuleName),
    Expr.relabelFunctions .plain owner ds = ds
  | [], _ => rfl
  | d :: rest, owner => by
    rw [Expr.relabelFunctions, FunctionDecl.relabel_plain d, Expr.relabelFunctions_plain rest]
termination_by structural ds => ds

theorem Pattern.relabel_plain : ∀ (p : Pattern) (owner : Option ModuleName),
    p.relabel .plain owner = p
  | .wildcard, _ => rfl
  | .literal _, _ => rfl
  | .bind _, _ => rfl
  | .alias _ inner, owner => by rw [Pattern.relabel, Pattern.relabel_plain inner]
  | .tuple items, owner => by rw [Pattern.relabel, Pattern.relabelItems_plain items]
  | .sequence items, owner => by rw [Pattern.relabel, Pattern.relabelItems_plain items]
  | .cons front rest back, owner => by
    rw [Pattern.relabel, Pattern.relabelItems_plain front, Pattern.relabel_plain rest,
      Pattern.relabelItems_plain back]
  | .dict entries, owner => by rw [Pattern.relabel, Pattern.relabelEntries_plain entries]
  | .guarded inner guard, owner => by
    rw [Pattern.relabel, Pattern.relabel_plain inner, Expr.relabel_plain guard]
termination_by structural p => p

theorem Pattern.relabelItems_plain : ∀ (ps : List Pattern) (owner : Option ModuleName),
    Pattern.relabelItems .plain owner ps = ps
  | [], _ => rfl
  | p :: rest, owner => by
    rw [Pattern.relabelItems, Pattern.relabel_plain p, Pattern.relabelItems_plain rest]
termination_by structural ps => ps

theorem Pattern.relabelEntries_plain :
    ∀ (es : List (Expr × Pattern)) (owner : Option ModuleName),
      Pattern.relabelEntries .plain owner es = es
  | [], _ => rfl
  | e :: rest, owner => by
    rw [Pattern.relabelEntries, Pattern.relabelEntry_plain e, Pattern.relabelEntries_plain rest]
termination_by structural es => es

theorem Pattern.relabelEntry_plain : ∀ (e : Expr × Pattern) (owner : Option ModuleName),
    Pattern.relabelEntry .plain owner e = e
  | (key, p), owner => by rw [Pattern.relabelEntry, Expr.relabel_plain key, Pattern.relabel_plain p]
termination_by structural e => e

theorem Step.relabel_plain : ∀ (step : Step) (owner : Option ModuleName),
    step.relabel .plain owner = step
  | .bind pattern e, owner => by
    rw [Step.relabel, Pattern.relabel_plain pattern, Expr.relabel_plain e]
  | .run e, owner => by rw [Step.relabel, Expr.relabel_plain e]
termination_by structural step => step

theorem Arm.relabel_plain : ∀ (arm : Arm) (owner : Option ModuleName), arm.relabel .plain owner = arm
  | .mk pattern alternatives, owner => by
    rw [Arm.relabel, Pattern.relabel_plain pattern, Arm.relabelAlternatives_plain alternatives]
termination_by structural arm => arm

theorem Arm.relabelAlternatives_plain :
    ∀ (as : List (Option Expr × Expr)) (owner : Option ModuleName),
      Arm.relabelAlternatives .plain owner as = as
  | [], _ => rfl
  | a :: rest, owner => by
    rw [Arm.relabelAlternatives, Arm.relabelAlternative_plain a, Arm.relabelAlternatives_plain rest]
termination_by structural as => as

theorem Arm.relabelAlternative_plain : ∀ (a : Option Expr × Expr) (owner : Option ModuleName),
    Arm.relabelAlternative .plain owner a = a
  | (guard, body), owner => by
    rw [Arm.relabelAlternative, Arm.relabelGuard_plain guard, Expr.relabel_plain body]
termination_by structural a => a

theorem Arm.relabelGuard_plain : ∀ (guard : Option Expr) (owner : Option ModuleName),
    Arm.relabelGuard .plain owner guard = guard
  | none, _ => rfl
  | some guard, owner => by rw [Arm.relabelGuard, Expr.relabel_plain guard]
termination_by structural guard => guard

theorem FunctionDecl.relabel_plain : ∀ (d : FunctionDecl) (owner : Option ModuleName),
    d.relabel .plain owner = d
  | .mk name params body, owner => by rw [FunctionDecl.relabel, Expr.relabel_plain body]
termination_by structural d => d

end

/-! ## Work, frames and handlers -/

/-- Relabels the code of work that runs as code of an owner. -/
def Work.relabel : Work → Work
  | .letIn bindings body =>
    .letIn (Expr.relabelBindings label owner bindings) (body.relabel label owner)
  | .block steps => .block (Expr.relabelSteps label owner steps)
  | .yield v => .yield v
  | .select value arms unmatched => .select value (Expr.relabelArms label owner arms) unmatched

def Trial.relabel (t : Trial) : Trial :=
  ⟨t.value, t.arm.relabel label owner, Expr.relabelArms label owner t.later, t.unmatched⟩

/-- Relabels the code of a frame that runs as code of an owner. -/
def Frame.relabel : Frame → Frame
  | .branch onTrue onFalse => .branch (onTrue.relabel label owner) (onFalse.relabel label owner)
  | .connectiveLeft op right => .connectiveLeft op (right.relabel label owner)
  | .connectiveRight op => .connectiveRight op
  | .andThen next => .andThen (next.relabel label owner)
  | .bindKeys value pattern next =>
    .bindKeys value (pattern.relabel label owner) (next.relabel label owner)
  | .bindRetry value pattern keys next =>
    .bindRetry value (pattern.relabel label owner) keys (next.relabel label owner)
  | .bindGuard value guards next =>
    .bindGuard value (Expr.relabelItems label owner guards) (next.relabel label owner)
  | .armKeys trial => .armKeys (trial.relabel label owner)
  | .armRetry trial keys => .armRetry (trial.relabel label owner) keys
  | .armGuard trial bindings guards =>
    .armGuard (trial.relabel label owner) bindings (Expr.relabelItems label owner guards)
  | .alternative trial bindings body others =>
    .alternative (trial.relabel label owner) bindings (body.relabel label owner)
      (Arm.relabelAlternatives label owner others)
  | .call args location => .call args location
  | .spawn => .spawn
  | .functionRef name => .functionRef (label owner name)
  | .raise tag => .raise tag

/-- How names are written anew, and the modules that are not lost. -/
structure Rewriting where
  label : Labelling
  kept : ModuleName → Prop

/-- Nothing is written anew, and every module may be lost. -/
def Rewriting.plain : Rewriting := ⟨.plain, fun _ => False⟩

/-- The module that code of an owner runs as code of: the owner, or none if it may have been lost. -/
def Rewriting.RunsAs (W : Rewriting) (owner module : Option ModuleName) : Prop :=
  module = owner ∨ module = none ∧ ∀ name, owner = some name → ¬W.kept name

/-- The second handler is the first with its code relabelled, which is that of an owner that the
environment fits. -/
inductive Rewriting.Rewrites (W : Rewriting) : Handler → Handler → Prop
  | resume {owner : Option ModuleName} {env : Environment} (howner : W.RunsAs owner env.module)
      (frame : Frame) : Rewrites W (.resume frame env) (.resume (frame.relabel W.label owner) env)
  | recover {owner : Option ModuleName} {env : Environment} (howner : W.RunsAs owner env.module)
      (arms : List Arm) :
      Rewrites W (.recover arms env) (.recover (Expr.relabelArms W.label owner arms) env)
  | compute (operation : Strict) : Rewrites W (.compute operation) (.compute operation)
  | apply (function : Value) (env : Environment) : Rewrites W (.apply function env) (.apply function env)
  | applyEither (function : Value) (env : Environment) :
      Rewrites W (.applyEither function env) (.applyEither function env)
  | report (name : String) : Rewrites W (.report name) (.report name)

theorem Work.relabel_plain (w : Work) : w.relabel .plain owner = w := by
  cases w <;> simp only [Work.relabel, Expr.relabel_plain, Expr.relabelBindings_plain,
    Expr.relabelSteps_plain, Expr.relabelArms_plain]

theorem Trial.relabel_plain (t : Trial) : t.relabel .plain owner = t := by
  simp only [Trial.relabel, Arm.relabel_plain, Expr.relabelArms_plain]

theorem Frame.relabel_plain (frame : Frame) : frame.relabel .plain owner = frame := by
  cases frame <;> simp only [Frame.relabel, Expr.relabel_plain, Expr.relabelItems_plain,
    Pattern.relabel_plain, Arm.relabelAlternatives_plain, Work.relabel_plain, Trial.relabel_plain,
    Labelling.plain]

namespace Rewriting

variable {W : Rewriting}

theorem RunsAs.refl (owner : Option ModuleName) : W.RunsAs owner owner := .inl rfl

theorem rewrites_plain (hplain : W.label = .plain) (h : Handler) : W.Rewrites h h := by
  have hresume := fun (frame : Frame) (env : Environment) =>
    (.resume (.refl env.module) frame : W.Rewrites (.resume frame env) _)
  have hrecover := fun (arms : List Arm) (env : Environment) =>
    (.recover (.refl env.module) arms : W.Rewrites (.recover arms env) _)
  simp only [hplain, Frame.relabel_plain, Expr.relabelArms_plain] at hresume hrecover
  cases h with
  | resume frame env => exact hresume frame env
  | recover arms env => exact hrecover arms env
  | compute operation => exact .compute operation
  | apply function env => exact .apply function env
  | applyEither function env => exact .applyEither function env
  | report name => exact .report name

theorem Rewrites.eq_of_plain {h h' : Handler} (hr : W.Rewrites h h') (hplain : W.label = .plain) :
    h' = h := by
  cases hr <;> simp only [hplain, Frame.relabel_plain, Expr.relabelArms_plain]

end Rewriting

end Deferral
