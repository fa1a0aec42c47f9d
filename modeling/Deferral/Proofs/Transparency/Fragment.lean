import Deferral.Eval.Step
import Deferral.Proofs.Pattern.MapParts
import Deferral.Proofs.Value.Inert

/-!
# Programs that cannot tell promises from values

`Expr.Transparent d` is the part of the language whose programs only compute: data, names, sets and
dictionaries, operators, branches, `let`, blocks, selections and calls, and tasks that are started
from a function written on the spot, nested at most `d` deep. Nothing in it makes a tuple or sequence
out of values that may be promises, makes a function that outlives the expression, or handles errors.

`Expr.erase` takes the tasks out of a program: what a task computes is computed where it was started.
-/

set_option autoImplicit false

namespace Deferral

/-! ## The expressions inside patterns, steps and arms -/

mutual

/-- The expressions inside a pattern: keys and guards. -/
def Pattern.parts : Pattern → List Expr
  | .wildcard => []
  | .literal _ => []
  | .bind _ => []
  | .alias _ inner => inner.parts
  | .tuple items => partsOfItems items
  | .sequence items => partsOfItems items
  | .cons front rest back => partsOfItems front ++ rest.parts ++ partsOfItems back
  | .dict entries => partsOfEntries entries
  | .guarded inner guard => inner.parts ++ [guard]
termination_by structural p => p

def Pattern.partsOfItems : List Pattern → List Expr
  | [] => []
  | p :: rest => p.parts ++ partsOfItems rest
termination_by structural ps => ps

def Pattern.partsOfEntries : List (Expr × Pattern) → List Expr
  | [] => []
  | e :: rest => partsOfEntry e ++ partsOfEntries rest
termination_by structural es => es

def Pattern.partsOfEntry : Expr × Pattern → List Expr
  | (key, p) => key :: p.parts
termination_by structural e => e

end

/-- The expressions of a binding. -/
def bindingParts (b : Pattern × Expr) : List Expr := b.2 :: b.1.parts

/-- The expressions of a step. -/
def Step.parts : Step → List Expr
  | .bind pattern e => bindingParts (pattern, e)
  | .run e => [e]

/-- The expressions of an alternative: its guard, if it has one, and its body. -/
def alternativeParts : Option Expr × Expr → List Expr
  | (none, body) => [body]
  | (some guard, body) => [guard, body]

/-- The expressions of an arm. -/
def Arm.parts (arm : Arm) : List Expr :=
  arm.pattern.parts ++ arm.alternatives.flatMap alternativeParts

/-- Programs that only compute, with tasks nested at most `d` deep. -/
inductive Expr.Transparent : Nat → Expr → Prop where
  | literal {d : Nat} {v : Value} (data : v.isData = true) : Transparent d (.literal v)
  | identifier {d : Nat} (name : String) : Transparent d (.identifier name)
  | set {d : Nat} {items : List Expr} (parts : ∀ e ∈ items, Transparent d e) :
      Transparent d (.set items)
  | dict {d : Nat} {entries : List (Expr × Expr)}
      (parts : ∀ e ∈ Engine.flatten entries, Transparent d e) : Transparent d (.dict entries)
  | binary {d : Nat} (op : BinaryOp) {left right : Expr} (l : Transparent d left)
      (r : Transparent d right) : Transparent d (.binary op left right)
  | unary {d : Nat} (op : UnaryOp) {operand : Expr} (o : Transparent d operand) :
      Transparent d (.unary op operand)
  | branch {d : Nat} {condition onTrue onFalse : Expr} (c : Transparent d condition)
      (t : Transparent d onTrue) (f : Transparent d onFalse) :
      Transparent d (.branch condition onTrue onFalse)
  | letIn {d : Nat} {bindings : List (Pattern × Expr)} {body : Expr}
      (parts : ∀ e ∈ bindings.flatMap bindingParts, Transparent d e) (b : Transparent d body) :
      Transparent d (.letIn bindings body)
  | block {d : Nat} {steps : List Step} (parts : ∀ e ∈ steps.flatMap Step.parts, Transparent d e) :
      Transparent d (.block steps)
  | select {d : Nat} {scrutinee : Expr} {arms : List Arm} (s : Transparent d scrutinee)
      (parts : ∀ e ∈ arms.flatMap Arm.parts, Transparent d e) :
      Transparent d (.select scrutinee arms)
  | call {d : Nat} {callee : Expr} {args : List Expr} (location : Option Location)
      (c : Transparent d callee) (parts : ∀ e ∈ args, Transparent d e) :
      Transparent d (.call callee args location)
  | spawn {d : Nat} {body : Expr} (b : Transparent d body) :
      Transparent (d + 1) (.spawn (.lambda none [] body))

/-! ## Erasure -/

mutual

/-- Computes the body of each task where the task is started. -/
def Expr.erase : Expr → Expr
  | .literal v => .literal v
  | .identifier name => .identifier name
  | .tuple items => .tuple (Expr.eraseItems items)
  | .sequence items => .sequence (Expr.eraseItems items)
  | .set items => .set (Expr.eraseItems items)
  | .dict entries => .dict (Expr.eraseEntries entries)
  | .binary op left right => .binary op left.erase right.erase
  | .unary op operand => .unary op operand.erase
  | .branch condition onTrue onFalse => .branch condition.erase onTrue.erase onFalse.erase
  | .letIn bindings body => .letIn (Expr.eraseBindings bindings) body.erase
  | .block steps => .block (Expr.eraseSteps steps)
  | .select scrutinee arms => .select scrutinee.erase (Expr.eraseArms arms)
  | .lambda name params body => .lambda name params body.erase
  | .call callee args location => .call callee.erase (Expr.eraseItems args) location
  | .moduleDecl name exports functions => .moduleDecl name exports (Expr.eraseFunctions functions)
  | .moduleRef name => .moduleRef name
  | .functionRef module name => .functionRef module.erase name
  | .spawn (.lambda none [] body) => body.erase
  | .spawn function => .spawn function.erase
  | .raise tag message => .raise tag message.erase
  | .attempt body arms => .attempt body.erase (Expr.eraseArms arms)
termination_by structural e => e

def Expr.eraseItems : List Expr → List Expr
  | [] => []
  | e :: rest => e.erase :: Expr.eraseItems rest
termination_by structural es => es

def Expr.eraseEntries : List (Expr × Expr) → List (Expr × Expr)
  | [] => []
  | e :: rest => Expr.eraseEntry e :: Expr.eraseEntries rest
termination_by structural es => es

def Expr.eraseEntry : Expr × Expr → Expr × Expr
  | (key, value) => (key.erase, value.erase)
termination_by structural e => e

def Expr.eraseBindings : List (Pattern × Expr) → List (Pattern × Expr)
  | [] => []
  | b :: rest => Expr.eraseBinding b :: Expr.eraseBindings rest
termination_by structural bs => bs

def Expr.eraseBinding : Pattern × Expr → Pattern × Expr
  | (pattern, e) => (pattern.erase, e.erase)
termination_by structural b => b

def Expr.eraseSteps : List Step → List Step
  | [] => []
  | step :: rest => step.erase :: Expr.eraseSteps rest
termination_by structural steps => steps

def Expr.eraseArms : List Arm → List Arm
  | [] => []
  | arm :: rest => arm.erase :: Expr.eraseArms rest
termination_by structural arms => arms

def Expr.eraseFunctions : List FunctionDecl → List FunctionDecl
  | [] => []
  | f :: rest => f.erase :: Expr.eraseFunctions rest
termination_by structural fs => fs

def Pattern.erase : Pattern → Pattern
  | .wildcard => .wildcard
  | .literal v => .literal v
  | .bind name => .bind name
  | .alias name inner => .alias name inner.erase
  | .tuple items => .tuple (Pattern.eraseItems items)
  | .sequence items => .sequence (Pattern.eraseItems items)
  | .cons front rest back => .cons (Pattern.eraseItems front) rest.erase (Pattern.eraseItems back)
  | .dict entries => .dict (Pattern.eraseEntries entries)
  | .guarded inner guard => .guarded inner.erase guard.erase
termination_by structural p => p

def Pattern.eraseItems : List Pattern → List Pattern
  | [] => []
  | p :: rest => p.erase :: Pattern.eraseItems rest
termination_by structural ps => ps

def Pattern.eraseEntries : List (Expr × Pattern) → List (Expr × Pattern)
  | [] => []
  | e :: rest => Pattern.eraseEntry e :: Pattern.eraseEntries rest
termination_by structural es => es

def Pattern.eraseEntry : Expr × Pattern → Expr × Pattern
  | (key, p) => (key.erase, p.erase)
termination_by structural e => e

def Step.erase : Step → Step
  | .bind pattern e => .bind pattern.erase e.erase
  | .run e => .run e.erase
termination_by structural step => step

def Arm.erase : Arm → Arm
  | .mk pattern alternatives => .mk pattern.erase (Arm.eraseAlternatives alternatives)
termination_by structural arm => arm

def Arm.eraseAlternatives : List (Option Expr × Expr) → List (Option Expr × Expr)
  | [] => []
  | a :: rest => Arm.eraseAlternative a :: Arm.eraseAlternatives rest
termination_by structural as => as

def Arm.eraseAlternative : Option Expr × Expr → Option Expr × Expr
  | (guard, body) => (Arm.eraseGuard guard, body.erase)
termination_by structural a => a

def Arm.eraseGuard : Option Expr → Option Expr
  | none => none
  | some guard => some guard.erase
termination_by structural guard => guard

def FunctionDecl.erase : FunctionDecl → FunctionDecl
  | .mk name params body => .mk name params body.erase
termination_by structural f => f

end

theorem Expr.eraseItems_eq (items : List Expr) : Expr.eraseItems items = items.map Expr.erase := by
  induction items with
  | nil => rfl
  | cons e rest ih => rw [Expr.eraseItems, ih, List.map_cons]

theorem Expr.flatten_eraseEntries (entries : List (Expr × Expr)) :
    Engine.flatten (Expr.eraseEntries entries) = (Engine.flatten entries).map Expr.erase := by
  induction entries with
  | nil => rfl
  | cons e rest ih =>
    obtain ⟨key, value⟩ := e
    simp only [Expr.eraseEntries, Expr.eraseEntry, Engine.flatten, ih, List.map_cons]

mutual

/-- Erasing a pattern erases its keys and guards. -/
theorem Pattern.erase_eq_mapParts : ∀ p : Pattern, p.erase = p.mapParts Expr.erase
  | .wildcard => rfl
  | .literal _ => rfl
  | .bind _ => rfl
  | .alias _ inner => by rw [Pattern.erase, mapParts, erase_eq_mapParts inner]
  | .tuple items => by rw [Pattern.erase, mapParts, eraseItems_eq_mapItems items]
  | .sequence items => by rw [Pattern.erase, mapParts, eraseItems_eq_mapItems items]
  | .cons front rest back => by
    rw [Pattern.erase, mapParts, eraseItems_eq_mapItems front, erase_eq_mapParts rest,
      eraseItems_eq_mapItems back]
  | .dict entries => by rw [Pattern.erase, mapParts, eraseEntries_eq_mapEntries entries]
  | .guarded inner _ => by rw [Pattern.erase, mapParts, erase_eq_mapParts inner]
termination_by structural p => p

theorem Pattern.eraseItems_eq_mapItems :
    ∀ ps : List Pattern, Pattern.eraseItems ps = mapItems Expr.erase ps
  | [] => rfl
  | p :: rest => by rw [Pattern.eraseItems, mapItems, erase_eq_mapParts p, eraseItems_eq_mapItems rest]
termination_by structural ps => ps

theorem Pattern.eraseEntries_eq_mapEntries :
    ∀ es : List (Expr × Pattern), Pattern.eraseEntries es = mapEntries Expr.erase es
  | [] => rfl
  | e :: rest => by
    rw [Pattern.eraseEntries, mapEntries, eraseEntry_eq_mapEntry e, eraseEntries_eq_mapEntries rest]
termination_by structural es => es

theorem Pattern.eraseEntry_eq_mapEntry :
    ∀ e : Expr × Pattern, Pattern.eraseEntry e = mapEntry Expr.erase e
  | (key, p) => by rw [Pattern.eraseEntry, mapEntry, erase_eq_mapParts p]
termination_by structural e => e

end

theorem Pattern.keys_erase (p : Pattern) : p.erase.keys = p.keys.map Expr.erase := by
  rw [erase_eq_mapParts, keys_mapParts]

/-- Erases the guards of a verdict. -/
def Matching.erase : Matching → Matching
  | .matched m => .matched ⟨m.bindings, m.guards.map Expr.erase⟩
  | .noMatch => .noMatch
  | .pending p => .pending p

/-- An erased pattern matches as the pattern does. -/
theorem Pattern.matching_erase (sight : Sight) (p : Pattern) (value : Value) (keys : List Value) :
    p.erase.matching sight value keys = (p.matching sight value keys).map Matching.erase := by
  have h : Matching.mapGuards Expr.erase = Matching.erase := by
    funext verdict
    cases verdict <;> rfl
  rw [erase_eq_mapParts, matching_mapParts, h]

/-! ## The expressions of a pattern -/

mutual

theorem Pattern.keys_subset_parts : ∀ p : Pattern, ∀ e ∈ p.keys, e ∈ p.parts
  | .wildcard, _, h => h
  | .literal _, _, h => h
  | .bind _, _, h => h
  | .alias _ inner, e, h => keys_subset_parts inner e h
  | .tuple items, e, h => keysOfItems_subset_parts items e h
  | .sequence items, e, h => keysOfItems_subset_parts items e h
  | .cons front rest back, e, h => by
    rw [Pattern.keys, List.mem_append, List.mem_append] at h
    rw [Pattern.parts, List.mem_append, List.mem_append]
    rcases h with (h | h) | h
    · exact .inl (.inl (keysOfItems_subset_parts front e h))
    · exact .inl (.inr (keys_subset_parts rest e h))
    · exact .inr (keysOfItems_subset_parts back e h)
  | .dict entries, e, h => keysOfEntries_subset_parts entries e h
  | .guarded inner _, e, h => List.mem_append_left _ (keys_subset_parts inner e h)
termination_by structural p => p

theorem Pattern.keysOfItems_subset_parts :
    ∀ ps : List Pattern, ∀ e ∈ keysOfItems ps, e ∈ partsOfItems ps
  | [], _, h => h
  | p :: rest, e, h => by
    rw [keysOfItems, List.mem_append] at h
    rw [partsOfItems, List.mem_append]
    rcases h with h | h
    · exact .inl (keys_subset_parts p e h)
    · exact .inr (keysOfItems_subset_parts rest e h)
termination_by structural ps => ps

theorem Pattern.keysOfEntries_subset_parts :
    ∀ es : List (Expr × Pattern), ∀ e ∈ keysOfEntries es, e ∈ partsOfEntries es
  | [], _, h => h
  | x :: rest, e, h => by
    rw [keysOfEntries, List.mem_append] at h
    rw [partsOfEntries, List.mem_append]
    rcases h with h | h
    · exact .inl (keysOfEntry_subset_parts x e h)
    · exact .inr (keysOfEntries_subset_parts rest e h)
termination_by structural es => es

theorem Pattern.keysOfEntry_subset_parts :
    ∀ x : Expr × Pattern, ∀ e ∈ keysOfEntry x, e ∈ partsOfEntry x
  | (key, p), e, h => by
    rw [keysOfEntry, List.mem_cons] at h
    rw [partsOfEntry, List.mem_cons]
    rcases h with h | h
    · exact .inl h
    · exact .inr (keys_subset_parts p e h)
termination_by structural x => x

end

/-! ## Programs without tasks

A program that starts no task is its own erasure. -/

mutual

theorem Pattern.erase_eq_self :
    ∀ p : Pattern, (∀ e ∈ p.parts, e.erase = e) → p.erase = p
  | .wildcard, _ => rfl
  | .literal _, _ => rfl
  | .bind _, _ => rfl
  | .alias _ inner, h => by rw [Pattern.erase, erase_eq_self inner h]
  | .tuple items, h => by rw [Pattern.erase, eraseItems_eq_self items h]
  | .sequence items, h => by rw [Pattern.erase, eraseItems_eq_self items h]
  | .cons front rest back, h => by
    rw [Pattern.parts, List.forall_mem_append, List.forall_mem_append] at h
    rw [Pattern.erase, eraseItems_eq_self front h.1.1, erase_eq_self rest h.1.2,
      eraseItems_eq_self back h.2]
  | .dict entries, h => by rw [Pattern.erase, eraseEntries_eq_self entries h]
  | .guarded inner guard, h => by
    rw [Pattern.parts, List.forall_mem_append] at h
    rw [Pattern.erase, erase_eq_self inner h.1, h.2 guard (.head _)]
termination_by structural p => p

theorem Pattern.eraseItems_eq_self :
    ∀ ps : List Pattern, (∀ e ∈ partsOfItems ps, e.erase = e) → Pattern.eraseItems ps = ps
  | [], _ => rfl
  | p :: rest, h => by
    rw [partsOfItems, List.forall_mem_append] at h
    rw [Pattern.eraseItems, erase_eq_self p h.1, eraseItems_eq_self rest h.2]
termination_by structural ps => ps

theorem Pattern.eraseEntries_eq_self :
    ∀ es : List (Expr × Pattern), (∀ e ∈ partsOfEntries es, e.erase = e) →
      Pattern.eraseEntries es = es
  | [], _ => rfl
  | x :: rest, h => by
    rw [partsOfEntries, List.forall_mem_append] at h
    rw [Pattern.eraseEntries, eraseEntry_eq_self x h.1, eraseEntries_eq_self rest h.2]
termination_by structural es => es

theorem Pattern.eraseEntry_eq_self :
    ∀ x : Expr × Pattern, (∀ e ∈ partsOfEntry x, e.erase = e) → Pattern.eraseEntry x = x
  | (key, p), h => by
    rw [partsOfEntry, List.forall_mem_cons] at h
    rw [Pattern.eraseEntry, h.1, erase_eq_self p h.2]
termination_by structural x => x

end

theorem Expr.eraseItems_eq_self {items : List Expr} (h : ∀ e ∈ items, e.erase = e) :
    Expr.eraseItems items = items := by
  rw [Expr.eraseItems_eq, List.map_congr_left h, List.map_id']

theorem Expr.eraseEntries_eq_self {entries : List (Expr × Expr)}
    (h : ∀ e ∈ Engine.flatten entries, e.erase = e) : Expr.eraseEntries entries = entries := by
  induction entries with
  | nil => rfl
  | cons x rest ih =>
    obtain ⟨key, value⟩ := x
    rw [Engine.flatten, List.forall_mem_cons, List.forall_mem_cons] at h
    rw [Expr.eraseEntries, Expr.eraseEntry, h.1, h.2.1, ih h.2.2]

theorem Expr.eraseBindings_eq_self {bindings : List (Pattern × Expr)}
    (h : ∀ e ∈ bindings.flatMap bindingParts, e.erase = e) :
    Expr.eraseBindings bindings = bindings := by
  induction bindings with
  | nil => rfl
  | cons b rest ih =>
    obtain ⟨p, e⟩ := b
    rw [List.flatMap_cons, List.forall_mem_append, bindingParts, List.forall_mem_cons] at h
    rw [Expr.eraseBindings, Expr.eraseBinding, h.1.1, p.erase_eq_self h.1.2, ih h.2]

theorem Step.erase_eq_self {step : Step} (h : ∀ e ∈ step.parts, e.erase = e) :
    step.erase = step := by
  cases step with
  | bind p e =>
    rw [Step.parts, bindingParts, List.forall_mem_cons] at h
    rw [Step.erase, h.1, p.erase_eq_self h.2]
  | run e => rw [Step.erase, h e (.head _)]

theorem Expr.eraseSteps_eq_self {steps : List Step}
    (h : ∀ e ∈ steps.flatMap Step.parts, e.erase = e) : Expr.eraseSteps steps = steps := by
  induction steps with
  | nil => rfl
  | cons step rest ih =>
    rw [List.flatMap_cons, List.forall_mem_append] at h
    rw [Expr.eraseSteps, Step.erase_eq_self h.1, ih h.2]

theorem Arm.eraseAlternative_eq_self {a : Option Expr × Expr}
    (h : ∀ e ∈ alternativeParts a, e.erase = e) : Arm.eraseAlternative a = a := by
  obtain ⟨guard, body⟩ := a
  cases guard with
  | none => rw [Arm.eraseAlternative, Arm.eraseGuard, h body (.head _)]
  | some guard =>
    rw [Arm.eraseAlternative, Arm.eraseGuard, h guard (.head _), h body (.tail _ (.head _))]

theorem Arm.eraseAlternatives_eq_self {alternatives : List (Option Expr × Expr)}
    (h : ∀ e ∈ alternatives.flatMap alternativeParts, e.erase = e) :
    Arm.eraseAlternatives alternatives = alternatives := by
  induction alternatives with
  | nil => rfl
  | cons a rest ih =>
    rw [List.flatMap_cons, List.forall_mem_append] at h
    rw [Arm.eraseAlternatives, Arm.eraseAlternative_eq_self h.1, ih h.2]

theorem Arm.erase_eq_self {arm : Arm} (h : ∀ e ∈ arm.parts, e.erase = e) : arm.erase = arm := by
  obtain ⟨p, alternatives⟩ := arm
  rw [Arm.parts, List.forall_mem_append] at h
  have halternatives : Arm.eraseAlternatives alternatives = alternatives :=
    Arm.eraseAlternatives_eq_self h.2
  rw [Arm.erase, p.erase_eq_self h.1, halternatives]

theorem Expr.eraseArms_eq_self {arms : List Arm} (h : ∀ e ∈ arms.flatMap Arm.parts, e.erase = e) :
    Expr.eraseArms arms = arms := by
  induction arms with
  | nil => rfl
  | cons arm rest ih =>
    rw [List.flatMap_cons, List.forall_mem_append] at h
    rw [Expr.eraseArms, Arm.erase_eq_self h.1, ih h.2]

theorem Expr.Transparent.erase_eq_self {e : Expr} (h : e.Transparent 0) : e.erase = e := by
  generalize hd : 0 = d at h
  induction h with
  | literal => rfl
  | identifier => rfl
  | set parts ih => rw [Expr.erase, Expr.eraseItems_eq_self fun e he => ih e he hd]
  | dict parts ih => rw [Expr.erase, Expr.eraseEntries_eq_self fun e he => ih e he hd]
  | binary op l r ihl ihr => rw [Expr.erase, ihl hd, ihr hd]
  | unary op o iho => rw [Expr.erase, iho hd]
  | branch c t f ihc iht ihf => rw [Expr.erase, ihc hd, iht hd, ihf hd]
  | letIn parts b ih ihb =>
    rw [Expr.erase, Expr.eraseBindings_eq_self fun e he => ih e he hd, ihb hd]
  | block parts ih => rw [Expr.erase, Expr.eraseSteps_eq_self fun e he => ih e he hd]
  | select s parts ihs ih =>
    rw [Expr.erase, ihs hd, Expr.eraseArms_eq_self fun e he => ih e he hd]
  | call location c parts ihc ih =>
    rw [Expr.erase, ihc hd, Expr.eraseItems_eq_self fun e he => ih e he hd]
  | spawn => cases hd

end Deferral
