import Deferral.Proofs.Transparency.Fragment

/-!
# What transparent programs compute

`Computes` is the natural semantics of transparent programs over values that are there: no store, no
environment but a list of bindings, and no promise. A task computes what its body computes. There is
one kind of `Job` for each function of the engine, so that a rule reads as the equation of that
function does.

The last index of a derivation is its *cost*. It bounds the fuel that the job needs, and the work that
it can leave with promises when some of its values are not there: what a value is waited for with
(`await`) costs a little more than going on at once, and a match may have to wait for its value and
for each name in scope.
-/

set_option autoImplicit false

namespace Deferral

/-! ## Functions that may occur -/

/-- The native is one of the prelude's. -/
def Native.isPrelude : Native → Bool
  | .host _ => false
  | _ => true

/-- The function is a native of the prelude, and so in no module. -/
def Function.isPrelude (f : Function) : Bool :=
  match f.body, f.module with
  | .native operation _, none => operation.isPrelude
  | _, _ => false

/-- The functions that may occur in values: the prelude's among those there are at the start. -/
def allows (fs : Array Function) (id : FunctionId) : Bool :=
  fs[id.index]?.any Function.isPrelude

/-- The machine knows the functions that may occur. -/
def Machine.Knows (m : Machine) (fs : Array Function) : Prop :=
  ∀ id, allows fs id = true → m.function? id = fs[id.index]?

theorem Function.module_of_isPrelude {f : Function} (h : f.isPrelude = true) : f.module = none := by
  unfold isPrelude at h
  split at h
  · rename_i hmodule
    exact hmodule
  · cases h

/-- A function that may occur is always there, as it was made. -/
theorem Machine.Knows.current? {m : Machine} {fs : Array Function} (h : m.Knows fs) {id : FunctionId}
    (hid : allows fs id = true) : m.current? id = fs[id.index]? := by
  have hfound := h id hid
  unfold allows at hid
  cases hf : fs[id.index]? with
  | none =>
    rw [hf] at hid
    cases hid
  | some f =>
    rw [hf] at hid hfound
    exact Machine.current?_of_unlinked hfound (Function.module_of_isPrelude hid)

theorem Machine.Knows.label {m m' : Machine} {fs : Array Function} (h : m.Knows fs)
    (h' : m'.Knows fs) (id : FunctionId) (hid : allows fs id = true) :
    m.directory.labels.function id = m'.directory.labels.function id := by
  have hf : m.current? id = m'.current? id := by rw [h.current? hid, h'.current? hid]
  simp only [Directory.labels, Directory.functionLabel, Machine.directory, hf]

/-! ## Strict operations -/

namespace Strict

/-- The operation gives a value for operands, whatever the machine. -/
def Gives (context : Context) (fs : Array Function) (operation : Strict) (operands : List Value)
    (v : Value) : Prop :=
  ∀ m : Machine, m.Knows fs → operation.run context operands m = .ok v m

/-- The operation is not one that the host adds. -/
def isPrelude : Strict → Bool
  | .native operation => operation.isPrelude
  | _ => true

variable {context : Context} {fs : Array Function}

theorem run_ofExcept {o : Outcome} {m m' : Machine} {v : Value}
    (h : EvalM.ofExcept o m = .ok v m') : o = .ok v ∧ m' = m := by
  cases o with
  | ok w =>
    cases h
    exact ⟨rfl, rfl⟩
  | error e => cases h

/-- What a native of the prelude gives does not depend on the machine. -/
theorem native_gives {operation : Native} {operands : List Value} {m m' : Machine} {v : Value}
    (hp : operation.isPrelude = true) (hk : m.Knows fs)
    (hi : ∀ x ∈ operands, x.inert (allows fs) = true)
    (h : operation.run context.host operands m = .ok v m') :
    (Strict.native operation).Gives context fs operands v ∧ v.inert (allows fs) = true ∧ m' = m := by
  unfold Native.run at h
  split at h
  · cases h
    exact ⟨fun _ _ => rfl, rfl, rfl⟩
  · rename_i x
    cases hn : x.size? with
    | none =>
      simp only [Native.sizeOf, hn] at h
      cases h
    | some n =>
      simp only [Native.sizeOf, hn] at h
      obtain ⟨ho, rfl⟩ := run_ofExcept h
      refine ⟨fun m _ => ?_, Operator.intResult_inert ho, rfl⟩
      simp only [Strict.run, Native.run, Native.sizeOf, hn, ho]
      rfl
  · cases h
    exact ⟨fun _ _ => rfl, hi _ (.head _), rfl⟩
  · rename_i x
    cases h
    refine ⟨fun m' hk' => ?_, Value.inert_ofText _, rfl⟩
    have ht : x.plain m'.directory.labels = x.plain m.directory.labels :=
      Value.render_congr (hk'.label hk) x (hi x (.head _))
    change EStateM.Result.ok (Value.ofText (x.plain m'.directory.labels)) m' = _
    rw [ht]
  · simp [Native.isPrelude] at hp
  · cases h

/-- What an operation gives does not depend on the machine. -/
theorem gives_of_run {operation : Strict} {operands : List Value} {m m' : Machine} {v : Value}
    (hp : operation.isPrelude = true) (hk : m.Knows fs)
    (hi : ∀ x ∈ operands, x.inert (allows fs) = true)
    (h : operation.run context operands m = .ok v m') :
    operation.Gives context fs operands v ∧ v.inert (allows fs) = true ∧ m' = m := by
  unfold Strict.run at h
  split at h
  · rename_i op l r
    obtain ⟨ho, rfl⟩ := run_ofExcept h
    refine ⟨fun m _ => ?_, BinaryOp.compute_inert ho (hi l (.head _)) (hi r (.tail _ (.head _))), rfl⟩
    simp only [Strict.run, ho]
    rfl
  · cases h
  · rename_i op x
    obtain ⟨ho, rfl⟩ := run_ofExcept h
    refine ⟨fun m _ => ?_, UnaryOp.compute_inert ho, rfl⟩
    simp only [Strict.run, ho]
    rfl
  · cases h
  · cases h
    exact ⟨fun _ _ => rfl, Value.inert_setOf hi, rfl⟩
  · cases h
    exact ⟨fun _ _ => rfl, Value.inert_dictOf (Value.inert_pairUp hi), rfl⟩
  · exact native_gives hp hk hi h

end Strict

/-- The operands of an expression that needs all of them, with what is done with them. -/
def Expr.operands? : Expr → Option (Strict × List Expr)
  | .set items => some (.set, items)
  | .dict entries => some (.dict, Engine.flatten entries)
  | .binary .and _ _ => none
  | .binary .or _ _ => none
  | .binary op left right => some (.binary op, [left, right])
  | .unary op operand => some (.unary op, [operand])
  | _ => none

theorem Expr.isPrelude_of_operands? {e : Expr} {op : Strict} {es : List Expr}
    (h : e.operands? = some (op, es)) : op.isPrelude = true := by
  unfold Expr.operands? at h
  split at h <;> cases h <;> rfl

theorem Engine.evalKind_of_operands? (E : Engine) {e : Expr} {op : Strict} {es : List Expr}
    (h : e.operands? = some (op, es)) :
    E.evalKind e = E.evalItems es >>= Strict.apply E op := by
  unfold Expr.operands? at h
  split at h <;> cases h
  · rfl
  · rfl
  · rename_i op left right ha ho
    cases op with
    | and => exact absurd rfl ha
    | or => exact absurd rfl ho
    | _ => simp only [Engine.evalKind, Engine.evalItems, bind_assoc, pure_bind]
  · simp only [Engine.evalKind, Engine.evalItems, bind_assoc, pure_bind]

/-! ## Jobs -/

/-- A piece of evaluation: one kind for each function of the engine. -/
inductive Job where
  | eval (e : Expr)
  /-- Expressions from left to right; the value is the tuple of theirs. -/
  | items (es : List Expr)
  | proceed (w : Work)
  | resume (frame : Frame) (v : Value)
  /-- Resumes a frame once the value is there. -/
  | await (v : Value) (frame : Frame)
  | letIn (bindings : List (Pattern × Expr)) (body : Expr)
  | block (steps : List Step)
  | bind (value : Value) (pattern : Pattern) (next : Work)
  | bindWith (value : Value) (pattern : Pattern) (keys : List Value) (next : Work)
  | guards (value : Value) (guards : List Expr) (next : Work)
  | select (value : Value) (arms : List Arm) (unmatched : Unmatched)
  | tryArm (trial : Trial) (keys : List Value)
  | armGuards (trial : Trial) (bindings : List (String × Value)) (guards : List Expr)
  | choose (trial : Trial) (bindings : List (String × Value))
    (alternatives : List (Option Expr × Expr))

/-- The work binds no names in the present frame. -/
def Work.isScoped : Work → Bool
  | .yield _ => true
  | .select .. => true
  | _ => false

/-- The frame, resumed, binds no names in the present frame. -/
def Frame.isScoped : Frame → Bool
  | .andThen _ => false
  | .bindKeys .. => false
  | .bindRetry .. => false
  | .bindGuard .. => false
  | _ => true

/-- The job binds no names in the present frame. -/
def Job.isScoped : Job → Bool
  | .proceed w => w.isScoped
  | .resume frame _ => frame.isScoped
  | .await _ frame => frame.isScoped
  | .letIn .. => false
  | .block _ => false
  | .bind .. => false
  | .bindWith .. => false
  | .guards .. => false
  | _ => true

/-- What the program has bound to a name in a list of bindings. -/
def userBinding? (bs : List Binding) (name : String) : Option Value :=
  Environment.getUser? ⟨bs, [], [], none⟩ name

/-- Adds names to a list of bindings. -/
def addBindings (bs : List Binding) (bindings : List (String × Value)) : List Binding :=
  bindings.foldl (fun bs b => ⟨b.1, b.2, false⟩ :: bs) bs

/-- What a job computes over bindings, with tasks nested at most `d` deep, at a cost. -/
inductive Computes (context : Context) (fs : Array Function) :
    Nat → List Binding → Job → Value → Nat → Prop where
  -- Expressions
  | literal {d : Nat} {bs : List Binding} {v : Value} (inert : v.inert (allows fs) = true) :
      Computes context fs d bs (.eval (.literal v)) v 1
  | identifier {d : Nat} {bs : List Binding} {name : String} {b : Binding}
      (found : bs.find? (·.name == name) = some b) :
      Computes context fs d bs (.eval (.identifier name)) b.value 1
  | strict {d : Nat} {bs : List Binding} {e : Expr} {op : Strict} {es : List Expr}
      {vs : List Value} {v : Value} {c : Nat} (operands : e.operands? = some (op, es))
      (items : Computes context fs d bs (.items es) (.tuple vs) c) (gives : op.Gives context fs vs v)
      (inert : v.inert (allows fs) = true) : Computes context fs d bs (.eval e) v (c + 4)
  | connective {d : Nat} {bs : List Binding} {op : BinaryOp} {left right : Expr} {x v : Value}
      {c₁ c₂ : Nat} (op_eq : op = .and ∨ op = .or) (l : Computes context fs d bs (.eval left) x c₁)
      (r : Computes context fs d bs (.await x (.connectiveLeft op right)) v c₂) :
      Computes context fs d bs (.eval (.binary op left right)) v (c₁ + c₂ + 1)
  | branch {d : Nat} {bs : List Binding} {condition onTrue onFalse : Expr} {x v : Value}
      {c₁ c₂ : Nat} (c : Computes context fs d bs (.eval condition) x c₁)
      (h : Computes context fs d bs (.await x (.branch onTrue onFalse)) v c₂) :
      Computes context fs d bs (.eval (.branch condition onTrue onFalse)) v (c₁ + c₂ + 1)
  | evalLet {d : Nat} {bs : List Binding} {bindings : List (Pattern × Expr)} {body : Expr}
      {v : Value} {c : Nat} (h : Computes context fs d bs (.letIn bindings body) v c) :
      Computes context fs d bs (.eval (.letIn bindings body)) v (c + 1)
  | evalBlock {d : Nat} {bs : List Binding} {steps : List Step} {v : Value} {c : Nat}
      (h : Computes context fs d bs (.block steps) v c) :
      Computes context fs d bs (.eval (.block steps)) v (c + 1)
  | evalSelect {d : Nat} {bs : List Binding} {scrutinee : Expr} {arms : List Arm} {x v : Value}
      {c₁ c₂ : Nat} (s : Computes context fs d bs (.eval scrutinee) x c₁)
      (h : Computes context fs d bs (.select x arms .noMatch) v c₂) :
      Computes context fs d bs (.eval (.select scrutinee arms)) v (c₁ + c₂ + 1)
  | call {d : Nat} {bs : List Binding} {callee : Expr} {args : List Expr}
      {location : Option Location} {f v : Value} {vs : List Value} {c₁ c₂ c₃ : Nat}
      (function : Computes context fs d bs (.eval callee) f c₁)
      (items : Computes context fs d bs (.items args) (.tuple vs) c₂)
      (h : Computes context fs d bs (.await f (.call vs location)) v c₃) :
      Computes context fs d bs (.eval (.call callee args location)) v (c₁ + c₂ + c₃ + 1)
  | spawn {d : Nat} {bs : List Binding} {body : Expr} {v : Value} {c : Nat}
      (b : Computes context fs d bs (.eval body) v c) (inert : v.inert (allows fs) = true) :
      Computes context fs (d + 1) bs (.eval (.spawn (.lambda none [] body))) v (c + 4)
  | nil {d : Nat} {bs : List Binding} : Computes context fs d bs (.items []) (.tuple []) 0
  | cons {d : Nat} {bs : List Binding} {e : Expr} {es : List Expr} {v : Value} {vs : List Value}
      {c₁ c₂ : Nat} (head : Computes context fs d bs (.eval e) v c₁)
      (tail : Computes context fs d bs (.items es) (.tuple vs) c₂) :
      Computes context fs d bs (.items (e :: es)) (.tuple (v :: vs)) (c₁ + c₂ + 1)
  | await {d : Nat} {bs : List Binding} {frame : Frame} {x v : Value} {c : Nat}
      (h : Computes context fs d bs (.resume frame x) v c) (inert : v.inert (allows fs) = true) :
      Computes context fs d bs (.await x frame) v (c + 3)
  -- Work
  | proceedLet {d : Nat} {bs : List Binding} {bindings : List (Pattern × Expr)} {body : Expr}
      {v : Value} {c : Nat} (h : Computes context fs d bs (.letIn bindings body) v c) :
      Computes context fs d bs (.proceed (.letIn bindings body)) v (c + 1)
  | proceedBlock {d : Nat} {bs : List Binding} {steps : List Step} {v : Value} {c : Nat}
      (h : Computes context fs d bs (.block steps) v c) :
      Computes context fs d bs (.proceed (.block steps)) v (c + 1)
  | proceedYield {d : Nat} {bs : List Binding} (v : Value) :
      Computes context fs d bs (.proceed (.yield v)) v 1
  | proceedSelect {d : Nat} {bs : List Binding} {x v : Value} {arms : List Arm}
      {unmatched : Unmatched} {c : Nat} (h : Computes context fs d bs (.select x arms unmatched) v c) :
      Computes context fs d bs (.proceed (.select x arms unmatched)) v (c + 1)
  -- Bindings
  | letNil {d : Nat} {bs : List Binding} {body : Expr} {v : Value} {c : Nat}
      (h : Computes context fs d bs (.eval body) v c) :
      Computes context fs d bs (.letIn [] body) v c
  | letCons {d : Nat} {bs : List Binding} {p : Pattern} {e : Expr} {rest : List (Pattern × Expr)}
      {body : Expr} {x v : Value} {c₁ c₂ : Nat} (value : Computes context fs d bs (.eval e) x c₁)
      (h : Computes context fs d bs (.bind x p (.letIn rest body)) v c₂) :
      Computes context fs d bs (.letIn ((p, e) :: rest) body) v (c₁ + c₂)
  | blockNil {d : Nat} {bs : List Binding} : Computes context fs d bs (.block []) .unit 0
  | blockLast {d : Nat} {bs : List Binding} {e : Expr} {v : Value} {c : Nat}
      (h : Computes context fs d bs (.eval e) v c) : Computes context fs d bs (.block [.run e]) v c
  | blockRun {d : Nat} {bs : List Binding} {e : Expr} {step : Step} {rest : List Step} {x v : Value}
      {c₁ c₂ : Nat} (value : Computes context fs d bs (.eval e) x c₁)
      (h : Computes context fs d bs (.await x (.andThen (.block (step :: rest)))) v c₂) :
      Computes context fs d bs (.block (.run e :: step :: rest)) v (c₁ + c₂)
  | blockBindLast {d : Nat} {bs : List Binding} {p : Pattern} {e : Expr} {x v : Value} {c₁ c₂ : Nat}
      (value : Computes context fs d bs (.eval e) x c₁)
      (h : Computes context fs d bs (.bind x p (.yield x)) v c₂) :
      Computes context fs d bs (.block [.bind p e]) v (c₁ + c₂)
  | blockBind {d : Nat} {bs : List Binding} {p : Pattern} {e : Expr} {step : Step} {rest : List Step}
      {x v : Value} {c₁ c₂ : Nat} (value : Computes context fs d bs (.eval e) x c₁)
      (h : Computes context fs d bs (.bind x p (.block (step :: rest))) v c₂) :
      Computes context fs d bs (.block (.bind p e :: step :: rest)) v (c₁ + c₂)
  | bind {d : Nat} {bs : List Binding} {x v : Value} {p : Pattern} {next : Work} {ks : List Value}
      {c₁ c₂ : Nat} (keys : Computes context fs d bs (.items p.keys) (.tuple ks) c₁)
      (h : Computes context fs d bs (.await (.tuple ks) (.bindKeys x p next)) v c₂) :
      Computes context fs d bs (.bind x p next) v (c₁ + c₂)
  | bindWith {d : Nat} {bs : List Binding} {x v : Value} {p : Pattern} {ks : List Value} {next : Work}
      {m : Match} {c : Nat} (look : PromiseId → Option Outcome)
      (matches_ : p.matching ⟨look, userBinding? bs⟩ x ks = .ok (.matched m))
      (h : Computes context fs d (addBindings bs m.bindings) (.guards x m.guards next) v c)
      (inert : v.inert (allows fs) = true) : Computes context fs d bs (.bindWith x p ks next) v c
  | guardsNil {d : Nat} {bs : List Binding} {x v : Value} {next : Work} {c : Nat}
      (h : Computes context fs d bs (.proceed next) v c) :
      Computes context fs d bs (.guards x [] next) v c
  | guardsCons {d : Nat} {bs : List Binding} {x y v : Value} {guard : Expr} {rest : List Expr}
      {next : Work} {c₁ c₂ : Nat} (holds : Computes context fs d bs (.eval guard) y c₁)
      (h : Computes context fs d bs (.await y (.bindGuard x rest next)) v c₂) :
      Computes context fs d bs (.guards x (guard :: rest) next) v (c₁ + c₂)
  -- Selections
  | selectCons {d : Nat} {bs : List Binding} {x v : Value} {arm : Arm} {later : List Arm}
      {unmatched : Unmatched} {ks : List Value} {c₁ c₂ : Nat}
      (keys : Computes context fs d bs (.items arm.pattern.keys) (.tuple ks) c₁)
      (h : Computes context fs d bs (.await (.tuple ks) (.armKeys ⟨x, arm, later, unmatched⟩)) v c₂) :
      Computes context fs d bs (.select x (arm :: later) unmatched) v (c₁ + c₂)
  | armMisses {d : Nat} {bs : List Binding} {trial : Trial} {ks : List Value} {v : Value} {c : Nat}
      (look : PromiseId → Option Outcome)
      (misses : trial.arm.pattern.matching ⟨look, userBinding? bs⟩ trial.value ks = .ok .noMatch)
      (h : Computes context fs d bs (.proceed trial.next) v c)
      (inert : v.inert (allows fs) = true) : Computes context fs d bs (.tryArm trial ks) v c
  | armMatches {d : Nat} {bs : List Binding} {trial : Trial} {ks : List Value} {m : Match} {v : Value}
      {c : Nat} (look : PromiseId → Option Outcome)
      (matches_ :
        trial.arm.pattern.matching ⟨look, userBinding? bs⟩ trial.value ks = .ok (.matched m))
      (h : Computes context fs d bs (.armGuards trial m.bindings m.guards) v c)
      (inert : v.inert (allows fs) = true) : Computes context fs d bs (.tryArm trial ks) v c
  | armGuardsNil {d : Nat} {bs : List Binding} {trial : Trial} {bindings : List (String × Value)}
      {v : Value} {c : Nat}
      (h : Computes context fs d bs (.choose trial bindings trial.arm.alternatives) v c) :
      Computes context fs d bs (.armGuards trial bindings []) v c
  | armGuardsCons {d : Nat} {bs : List Binding} {trial : Trial} {bindings : List (String × Value)}
      {guard : Expr} {rest : List Expr} {y v : Value} {c₁ c₂ : Nat}
      (holds : Computes context fs d (addBindings bs bindings) (.eval guard) y c₁)
      (h : Computes context fs d bs (.await y (.armGuard trial bindings rest)) v c₂) :
      Computes context fs d bs (.armGuards trial bindings (guard :: rest)) v (c₁ + c₂)
  | chooseNil {d : Nat} {bs : List Binding} {trial : Trial} {bindings : List (String × Value)}
      {v : Value} {c : Nat} (h : Computes context fs d bs (.proceed trial.next) v c) :
      Computes context fs d bs (.choose trial bindings []) v c
  | chooseBody {d : Nat} {bs : List Binding} {trial : Trial} {bindings : List (String × Value)}
      {body : Expr} {others : List (Option Expr × Expr)} {v : Value} {c : Nat}
      (h : Computes context fs d (addBindings bs bindings) (.eval body) v c) :
      Computes context fs d bs (.choose trial bindings ((none, body) :: others)) v c
  | chooseGuard {d : Nat} {bs : List Binding} {trial : Trial} {bindings : List (String × Value)}
      {guard body : Expr} {others : List (Option Expr × Expr)} {y v : Value} {c₁ c₂ : Nat}
      (holds : Computes context fs d (addBindings bs bindings) (.eval guard) y c₁)
      (h : Computes context fs d bs (.await y (.alternative trial bindings body others)) v c₂) :
      Computes context fs d bs (.choose trial bindings ((some guard, body) :: others)) v (c₁ + c₂)
  -- Frames
  | branchTrue {d : Nat} {bs : List Binding} {onTrue onFalse : Expr} {v : Value} {c : Nat}
      (h : Computes context fs d bs (.eval onTrue) v c) :
      Computes context fs d bs (.resume (.branch onTrue onFalse) (.bool true)) v (c + 1)
  | branchFalse {d : Nat} {bs : List Binding} {onTrue onFalse : Expr} {v : Value} {c : Nat}
      (h : Computes context fs d bs (.eval onFalse) v c) :
      Computes context fs d bs (.resume (.branch onTrue onFalse) (.bool false)) v (c + 1)
  | andFalse {d : Nat} {bs : List Binding} {right : Expr} :
      Computes context fs d bs (.resume (.connectiveLeft .and right) (.bool false)) (.bool false) 1
  | orTrue {d : Nat} {bs : List Binding} {right : Expr} :
      Computes context fs d bs (.resume (.connectiveLeft .or right) (.bool true)) (.bool true) 1
  | connectiveLeft {d : Nat} {bs : List Binding} {op : BinaryOp} {b : Bool} {right : Expr}
      {y v : Value} {c₁ c₂ : Nat} (undecided : op = .and ∧ b = true ∨ op = .or ∧ b = false)
      (r : Computes context fs d bs (.eval right) y c₁)
      (h : Computes context fs d bs (.await y (.connectiveRight op)) v c₂) :
      Computes context fs d bs (.resume (.connectiveLeft op right) (.bool b)) v (c₁ + c₂ + 1)
  | connectiveRight {d : Nat} {bs : List Binding} {op : BinaryOp} {b : Bool} :
      Computes context fs d bs (.resume (.connectiveRight op) (.bool b)) (.bool b) 1
  | andThen {d : Nat} {bs : List Binding} {next : Work} {x v : Value} {c : Nat}
      (h : Computes context fs d bs (.proceed next) v c) :
      Computes context fs d bs (.resume (.andThen next) x) v (c + 1)
  | bindKeys {d : Nat} {bs : List Binding} {x v : Value} {p : Pattern} {ks : List Value} {next : Work}
      {c : Nat} (h : Computes context fs d bs (.bindWith x p ks next) v c) :
      Computes context fs d bs (.resume (.bindKeys x p next) (.tuple ks)) v (c + 4 * bs.length + 5)
  | bindRetry {d : Nat} {bs : List Binding} {x y v : Value} {p : Pattern} {ks : List Value}
      {next : Work} {c : Nat} (h : Computes context fs d bs (.bindWith x p ks next) v c) :
      Computes context fs d bs (.resume (.bindRetry x p ks next) y) v (c + 1)
  | bindGuard {d : Nat} {bs : List Binding} {x v : Value} {rest : List Expr} {next : Work} {c : Nat}
      (h : Computes context fs d bs (.guards x rest next) v c) :
      Computes context fs d bs (.resume (.bindGuard x rest next) (.bool true)) v (c + 1)
  | armKeys {d : Nat} {bs : List Binding} {trial : Trial} {ks : List Value} {v : Value} {c : Nat}
      (h : Computes context fs d bs (.tryArm trial ks) v c) :
      Computes context fs d bs (.resume (.armKeys trial) (.tuple ks)) v (c + 4 * bs.length + 5)
  | armRetry {d : Nat} {bs : List Binding} {trial : Trial} {ks : List Value} {y v : Value} {c : Nat}
      (h : Computes context fs d bs (.tryArm trial ks) v c) :
      Computes context fs d bs (.resume (.armRetry trial ks) y) v (c + 1)
  | armGuardTrue {d : Nat} {bs : List Binding} {trial : Trial} {bindings : List (String × Value)}
      {rest : List Expr} {v : Value} {c : Nat}
      (h : Computes context fs d bs (.armGuards trial bindings rest) v c) :
      Computes context fs d bs (.resume (.armGuard trial bindings rest) (.bool true)) v (c + 1)
  | armGuardFalse {d : Nat} {bs : List Binding} {trial : Trial} {bindings : List (String × Value)}
      {rest : List Expr} {v : Value} {c : Nat}
      (h : Computes context fs d bs (.proceed trial.next) v c) :
      Computes context fs d bs (.resume (.armGuard trial bindings rest) (.bool false)) v (c + 1)
  | alternativeTrue {d : Nat} {bs : List Binding} {trial : Trial} {bindings : List (String × Value)}
      {body : Expr} {others : List (Option Expr × Expr)} {v : Value} {c : Nat}
      (h : Computes context fs d (addBindings bs bindings) (.eval body) v c) :
      Computes context fs d bs (.resume (.alternative trial bindings body others) (.bool true)) v
        (c + 1)
  | alternativeFalse {d : Nat} {bs : List Binding} {trial : Trial} {bindings : List (String × Value)}
      {body : Expr} {others : List (Option Expr × Expr)} {v : Value} {c : Nat}
      (h : Computes context fs d bs (.choose trial bindings others) v c) :
      Computes context fs d bs (.resume (.alternative trial bindings body others) (.bool false)) v
        (c + 1)
  | callNative {d : Nat} {bs : List Binding} {id : FunctionId} {f : Function} {operation : Native}
      {arity : Nat} {vs : List Value} {location : Option Location} {v : Value}
      (found : fs[id.index]? = some f) (body : f.body = .native operation arity)
      (unlinked : f.module = none) (isPrelude : operation.isPrelude = true) (count : vs.length = arity)
      (gives : (Strict.native operation).Gives context fs vs v)
      (inert : v.inert (allows fs) = true) :
      Computes context fs d bs (.resume (.call vs location) (.function id)) v (vs.length + 4)

end Deferral
