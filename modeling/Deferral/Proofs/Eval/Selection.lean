import Deferral.Proofs.Eval.Run
import Deferral.Proofs.Pattern.Guards

/-!
# The course of a selection

A selection goes on from evaluation to evaluation, and at three points of each arm it may have to leave
the rest to a promise. `Script` is what a selection does up to that point, as a tree: what is evaluated
next, and how it goes on from each value. `script` and `resuming` are the trees of a selection and of a
frame that one has left behind, and running them is what the engine does (`Selection.select_eq`,
`Selection.resume_eq`). Beside the result, a run of a tree yields what has been evaluated and found out
on the way (`Act`), and the frame that it has left to a promise.

`Position` says how far a selection has come, as far as that matters for what may happen next, and
`Position.Step` what that is. Wherever a selection has stopped and however often it has been taken up
again, its acts so far make up a path from the first position to one where it is left to a promise, or
where it may end (`Course.follows`).
-/

set_option autoImplicit false

namespace Deferral.Selection

/-! ## What happens in a selection -/

/-- What there is to be evaluated of an arm. -/
inductive Part where
  /-- A key of the pattern. -/
  | key
  /-- A guard inside the pattern. -/
  | guard
  /-- The guard of an alternative. -/
  | alternative
  | body

/-- Something is evaluated, or is found out. -/
inductive Act where
  /-- A part is evaluated, and comes to a value, or fails. -/
  | evaluates (part : Part) (e : Expr) (failure : Option Abort)
  /-- Whether the pattern fits. -/
  | fits (b : Bool)
  /-- Whether the guard that was evaluated last holds. -/
  | holds (b : Bool)
  /-- No alternative is left. -/
  | exhausted
  /-- The keys cannot be waited for, the pattern cannot be matched, or a guard is no condition. -/
  | faults (abort : Abort)

/-- Evaluates a part of an arm. Keys are evaluated before there are bindings. -/
def Part.evaluate (E : Engine) (bindings : List (String × Value)) (e : Expr) : Part → EvalM Value
  | .key => E.eval e
  | _ => E.evalInArm bindings e

/-- What a selection does, until it comes to an end or leaves the rest to a promise. -/
inductive Script where
  | evaluate (part : Part) (bindings : List (String × Value)) (e : Expr) (next : Value → Script)
  | note (act : Act) (next : Script)
  | matching (pattern : Pattern) (value : Value) (keys : List Value)
    (next : Except Error Matching → Script)
  /-- Goes on one level further down. -/
  | deeper (next : Script)
  | leave (p : PromiseId) (frame : Frame)
  /-- Leaves the rest to a promise for all the keys. -/
  | gather (keys : List Value) (frame : Frame)
  | yield (v : Value)
  | fail (e : Error)
  /-- There are no more arms. -/
  | nothing (value : Value) (unmatched : Unmatched)

/-- A run of a script. -/
structure Ran where
  result : EStateM.Result Abort Machine Value
  acts : List Act
  /-- What has been left to a promise. -/
  left : Option Frame

def Ran.after (acts : List Act) (r : Ran) : Ran := { r with acts := acts ++ r.acts }

def Script.run (context : Context) : Script → Nat → Machine → Ran
  | .evaluate part bindings e next, n, m =>
    match part.evaluate (engine context n) bindings e m with
    | .ok v m => ((next v).run context n m).after [.evaluates part e none]
    | .error abort m => ⟨.error abort m, [.evaluates part e (some abort)], none⟩
  | .note act next, n, m => (next.run context n m).after [act]
  | .matching pattern value keys next, n, m =>
    (next (pattern.matching m.sight value keys)).run context n m
  | .deeper _, 0, m => ⟨.error .outOfFuel m, [], none⟩
  | .deeper next, n + 1, m => next.run context n m
  | .leave p frame, n, m => ⟨(engine context n).whenReady (.promise p) frame m, [], some frame⟩
  | .gather keys frame, n, m =>
    match Promise.all (engine context n).deliver keys m with
    | .ok p m => ⟨(engine context n).whenReady (.promise p) frame m, [], some frame⟩
    | .error abort m => ⟨.error abort m, [.faults abort], none⟩
  | .yield v, _, m => ⟨.ok v m, [], none⟩
  | .fail e, _, m => ⟨.error (.error e) m, [.faults (.error e)], none⟩
  | .nothing value unmatched, n, m => ⟨(engine context n).select value [] unmatched m, [], none⟩

/-! ## The scripts of selections -/

/-- Goes on with the verdict of a guard. -/
def judged (v : Value) (onTrue onFalse : Script) : Script :=
  match guardVerdict v with
  | .ok true => .note (.holds true) onTrue
  | .ok false => .note (.holds false) onFalse
  | .error e => .fail e

/-- Goes on, or leaves a frame, if the value is a promise. -/
def ready (v : Value) (frame : Frame) (next : Script) : Script :=
  match v with
  | .promise p => .leave p frame
  | _ => .deeper next

section

variable (trial : Trial) (bindings : List (String × Value)) (next : Script)

/-- The body that has been chosen. -/
def chosen (body : Expr) : Script := .evaluate .body bindings body .yield

/-- The alternatives of an arm; `next` is for the arms after it. -/
def choosing : List (Option Expr × Expr) → Script
  | [] => .note .exhausted (.deeper next)
  | (none, body) :: _ => chosen bindings body
  | (some guard, body) :: others => .evaluate .alternative bindings guard fun v =>
    ready v (.alternative trial bindings body others)
      (judged v (chosen bindings body) (choosing others))

/-- The guards inside the pattern of an arm, then its alternatives. -/
def checking : List Expr → Script
  | [] => choosing trial bindings next trial.arm.alternatives
  | guard :: rest => .evaluate .guard bindings guard fun v =>
    ready v (.armGuard trial bindings rest) (judged v (checking rest) (.deeper next))

/-- An arm whose keys are known. -/
def trying (keys : List Value) : Script :=
  .matching trial.arm.pattern trial.value keys fun
    | .error e => .fail e
    | .ok .noMatch => .note (.fits false) (.deeper next)
    | .ok (.pending p) => .leave p (.armRetry trial keys)
    | .ok (.matched found) => .note (.fits true) (checking trial found.bindings next found.guards)

/-- An arm with some of its keys left to be evaluated. -/
def keying : List Expr → List Value → Script
  | [], keys =>
    if keys.any Value.isPromise then .gather keys (.armKeys trial) else trying trial next keys
  | e :: rest, keys => .evaluate .key [] e fun v => keying rest (keys ++ [v])

end

/-- What a selection does. -/
def script (value : Value) (unmatched : Unmatched) : List Arm → Script
  | [] => .nothing value unmatched
  | arm :: later =>
    keying ⟨value, arm, later, unmatched⟩ (script value unmatched later) arm.pattern.keys []

/-- What is done if the arm turns out not to fit. -/
def others (trial : Trial) : Script := script trial.value trial.unmatched trial.later

/-- What a selection does that is taken up again. -/
def resuming (v : Value) : Frame → Script
  | .armKeys trial => trying trial (others trial) v.elements
  | .armRetry trial keys => trying trial (others trial) keys
  | .armGuard trial bindings guards =>
    judged v (checking trial bindings (others trial) guards) (.deeper (others trial))
  | .alternative trial bindings body rest =>
    judged v (chosen bindings body) (choosing trial bindings (others trial) rest)
  | _ => .yield v

/-! ## Scripts are what the engine does -/

section

variable {context : Context} {n : Nat} {m : Machine} {trial : Trial}
  {bindings : List (String × Value)} {next : Script}

theorem result_evaluate (part : Part) (e : Expr) {f : Value → EvalM Value} {g : Value → Script}
    (h : ∀ v m, f v m = ((g v).run context n m).result) (m : Machine) :
    (part.evaluate (engine context n) bindings e >>= f) m =
      ((Script.evaluate part bindings e g).run context n m).result := by
  change EStateM.bind _ f m = _
  rw [EStateM.bind, Script.run]
  cases part.evaluate (engine context n) bindings e m with
  | ok v m₁ => exact h v m₁
  | error abort m₁ => rfl

theorem result_chosen (body : Expr) (m : Machine) :
    (engine context n).evalInArm bindings body m =
      ((chosen bindings body).run context n m).result := by
  have hyield : ∀ v m, (pure v : EvalM Value) m = ((Script.yield v).run context n m).result :=
    fun _ _ => rfl
  have h : ((engine context n).evalInArm bindings body >>= pure) m = _ :=
    result_evaluate .body body hyield m
  rwa [bind_pure] at h

/-- The value is there, and the engine has some fuel left. -/
theorem result_ready (v : Value) {frame : Frame}
    (h : ∀ n m, (engine context n).resumeStep frame v m = (next.run context n m).result)
    (m : Machine) :
    (engine context n).whenReady v frame m = ((ready v frame next).run context n m).result := by
  have hresume : (engine context n).resume frame v m =
      ((Script.deeper next).run context n m).result := by
    cases n with
    | zero => rfl
    | succ n => exact h n m
  cases v <;> first | rfl | exact hresume

theorem result_judged (v : Value) {onTrue onFalse : EvalM Value} {whenTrue whenFalse : Script}
    (htrue : ∀ m, onTrue m = (whenTrue.run context n m).result)
    (hfalse : ∀ m, onFalse m = (whenFalse.run context n m).result) (m : Machine) :
    (EvalM.ofExcept (guardVerdict v) >>= fun b => if b then onTrue else onFalse) m =
      ((judged v whenTrue whenFalse).run context n m).result := by
  unfold judged
  cases guardVerdict v with
  | error e => rfl
  | ok b =>
    cases b with
    | true => exact htrue m
    | false => exact hfalse m

/-- The script for the arms that are left is what the engine does with them. -/
def Continues (context : Context) (trial : Trial) (next : Script) : Prop :=
  ∀ n m, (engine context n).select trial.value trial.later trial.unmatched m =
    (next.run context n m).result

section

variable (hnext : Continues context trial next)
include hnext

theorem result_proceed (n : Nat) (m : Machine) :
    (engine context n).proceed trial.next m = ((Script.deeper next).run context n m).result := by
  cases n with
  | zero => rfl
  | succ n => exact hnext n m

theorem result_choosing (alternatives : List (Option Expr × Expr)) (n : Nat) (m : Machine) :
    (engine context n).choose trial bindings alternatives m =
      ((choosing trial bindings next alternatives).run context n m).result := by
  induction alternatives generalizing n m with
  | nil => exact result_proceed hnext n m
  | cons alternative rest ih =>
    obtain ⟨guard, body⟩ := alternative
    cases guard with
    | none => exact result_chosen body m
    | some guard =>
      refine result_evaluate .alternative guard (fun v m => result_ready v (fun n m => ?_) m) m
      exact result_judged v (fun m => result_chosen body m) (ih n) m

theorem result_checking (guards : List Expr) (n : Nat) (m : Machine) :
    (engine context n).checkArmGuards trial bindings guards m =
      ((checking trial bindings next guards).run context n m).result := by
  induction guards generalizing n m with
  | nil => exact result_choosing hnext _ n m
  | cons guard rest ih =>
    refine result_evaluate .guard guard (fun v m => result_ready v (fun n m => ?_) m) m
    exact result_judged v (ih n) (result_proceed hnext n) m

theorem result_trying (keys : List Value) (n : Nat) (m : Machine) :
    (engine context n).tryArm trial keys m = ((trying trial next keys).run context n m).result := by
  rw [trying, Script.run]
  cases hverdict : trial.arm.pattern.matching m.sight trial.value keys with
  | error e => exact Engine.tryArm_of_error hverdict
  | ok verdict =>
    cases verdict with
    | noMatch => exact (Engine.tryArm_of_noMatch hverdict).trans (result_proceed hnext n m)
    | pending p => exact Engine.tryArm_of_pending hverdict
    | matched found => exact (Engine.tryArm_of_matched hverdict).trans (result_checking hnext _ n m)

theorem result_keying (es : List Expr) (keys : List Value) (n : Nat) (m : Machine) :
    ((engine context n).evalItems es >>= fun vs =>
        (engine context n).whenAllReady (keys ++ vs) (.armKeys trial) fun keys =>
          (engine context n).tryArm trial keys) m =
      ((keying trial next es keys).run context n m).result := by
  induction es generalizing keys m with
  | nil =>
    change (engine context n).whenAllReady (keys ++ []) (.armKeys trial) _ m = _
    rw [List.append_nil, Engine.whenAllReady, keying]
    split
    · change EStateM.bind _ _ m = _
      rw [EStateM.bind, Script.run]
      cases Promise.all (engine context n).deliver keys m <;> rfl
    · exact result_trying hnext keys n m
  | cons e rest ih =>
    refine Eq.trans ?_ (result_evaluate .key e (fun v m => ih (keys ++ [v]) m) m)
    simp only [Engine.evalItems, bind_assoc, pure_bind, List.append_assoc, List.cons_append,
      List.nil_append]
    rfl

end

/-- What is left is left to one promise, and the run ends with that. -/
theorem Script.leaves {s : Script} {frame : Frame} (h : (s.run context n m).left = some frame) :
    ∃ k p m₁, (s.run context n m).result = (engine context k).whenReady (.promise p) frame m₁ := by
  induction s generalizing n m with
  | evaluate part bindings e next ih =>
    simp only [Script.run] at h ⊢
    cases hr : part.evaluate (engine context n) bindings e m with
    | ok v m₁ =>
      rw [hr] at h
      exact ih v h
    | error abort m₁ =>
      rw [hr] at h
      cases h
  | note act next ih => exact ih h
  | matching pattern value keys next ih => exact ih _ h
  | deeper next ih =>
    cases n with
    | zero => cases h
    | succ n => exact ih h
  | leave p frame' =>
    cases h
    exact ⟨n, p, m, rfl⟩
  | gather keys frame' =>
    simp only [Script.run] at h ⊢
    cases hr : Promise.all (engine context n).deliver keys m with
    | ok p m₁ =>
      rw [hr] at h
      cases h
      exact ⟨n, p, m₁, rfl⟩
    | error abort m₁ =>
      rw [hr] at h
      cases h
  | yield v => cases h
  | fail e => cases h
  | nothing value unmatched => cases h

/-- The script of a selection is what the engine does. -/
theorem select_eq (context : Context) (value : Value) (unmatched : Unmatched) (arms : List Arm)
    (n : Nat) (m : Machine) :
    (engine context n).select value arms unmatched m =
      ((script value unmatched arms).run context n m).result := by
  induction arms generalizing n m with
  | nil => rfl
  | cons arm later ih =>
    have hnext : Continues context ⟨value, arm, later, unmatched⟩ (script value unmatched later) := ih
    exact result_keying hnext arm.pattern.keys [] n m

end

/-! ## The order of things -/

/-- How far a selection has come. -/
inductive Position where
  /-- These keys of the arm are left to be evaluated. -/
  | keys (left : List Expr) (arm : Arm) (later : List Arm)
  /-- The pattern of an arm fits, and these guards and alternatives are left. -/
  | fitting (guards : List Expr) (alternatives : List (Option Expr × Expr)) (later : List Arm)
  /-- A guard inside the pattern has been evaluated. -/
  | judging (guards : List Expr) (alternatives : List (Option Expr × Expr)) (later : List Arm)
  /-- The guard of an alternative has been evaluated. -/
  | weighing (body : Expr) (alternatives : List (Option Expr × Expr)) (later : List Arm)
  | chosen (body : Expr)
  /-- A body has been evaluated. -/
  | done
  /-- No arm is left. -/
  | unmatched
  /-- Something has failed. -/
  | stopped (abort : Abort)

namespace Position

/-- The first of these arms is to be tried. -/
def start : List Arm → Position
  | [] => .unmatched
  | arm :: later => .keys arm.pattern.keys arm later

/-- Whether values that have been evaluated are to be looked into. -/
def looks : Position → Bool
  | .keys [] _ _ => true
  | .judging .. => true
  | .weighing .. => true
  | _ => false

/-- What may happen next. -/
inductive Step : Position → Act → Position → Prop
  | key (e : Expr) (left : List Expr) (arm : Arm) (later : List Arm) :
      Step (.keys (e :: left) arm later) (.evaluates .key e none) (.keys left arm later)
  | fits (arm : Arm) (later : List Arm) :
      Step (.keys [] arm later) (.fits true) (.fitting arm.pattern.guards arm.alternatives later)
  | misfits (arm : Arm) (later : List Arm) : Step (.keys [] arm later) (.fits false) (start later)
  | guard (e : Expr) (left : List Expr) (alternatives : List (Option Expr × Expr))
      (later : List Arm) :
      Step (.fitting (e :: left) alternatives later) (.evaluates .guard e none)
        (.judging left alternatives later)
  | granted (left : List Expr) (alternatives : List (Option Expr × Expr)) (later : List Arm) :
      Step (.judging left alternatives later) (.holds true) (.fitting left alternatives later)
  | denied (left : List Expr) (alternatives : List (Option Expr × Expr)) (later : List Arm) :
      Step (.judging left alternatives later) (.holds false) (start later)
  | alternative (e body : Expr) (left : List (Option Expr × Expr)) (later : List Arm) :
      Step (.fitting [] ((some e, body) :: left) later) (.evaluates .alternative e none)
        (.weighing body left later)
  | chooses (body : Expr) (left : List (Option Expr × Expr)) (later : List Arm) :
      Step (.weighing body left later) (.holds true) (.chosen body)
  | passes (body : Expr) (left : List (Option Expr × Expr)) (later : List Arm) :
      Step (.weighing body left later) (.holds false) (.fitting [] left later)
  | plain (body : Expr) (left : List (Option Expr × Expr)) (later : List Arm) :
      Step (.fitting [] ((none, body) :: left) later) (.evaluates .body body none) .done
  | exhausted (later : List Arm) : Step (.fitting [] [] later) .exhausted (start later)
  | body (e : Expr) : Step (.chosen e) (.evaluates .body e none) .done
  | fails {x y : Position} {part : Part} {e : Expr} (step : Step x (.evaluates part e none) y)
      (abort : Abort) : Step x (.evaluates part e (some abort)) (.stopped abort)
  | faults {x : Position} (hx : x.looks = true) (abort : Abort) :
      Step x (.faults abort) (.stopped abort)

/-- Where a selection that has not been left to a promise may end, and what it comes to there. -/
inductive Ends : Position → EStateM.Result Abort Machine Value → Prop
  | done (v : Value) (m : Machine) : Ends .done (.ok v m)
  | unmatched (e : Error) (m : Machine) : Ends .unmatched (.error (.error e) m)
  | stopped (abort : Abort) (m : Machine) : Ends (.stopped abort) (.error abort m)
  /-- Only fuel can be wanting anywhere. -/
  | outOfFuel (x : Position) (m : Machine) : Ends x (.error .outOfFuel m)

/-- What may happen one after the other. -/
inductive Steps : Position → List Act → Position → Prop
  | nil (x : Position) : Steps x [] x
  | cons {x y z : Position} {act : Act} {acts : List Act} (step : Step x act y)
      (rest : Steps y acts z) : Steps x (act :: acts) z

theorem Steps.single {x y : Position} {act : Act} (step : Step x act y) : Steps x [act] y :=
  .cons step (.nil y)

theorem Steps.append {x y z : Position} {acts more : List Act} (h : Steps x acts y)
    (h' : Steps y more z) : Steps x (acts ++ more) z := by
  induction h with
  | nil => exact h'
  | cons step _ ih => exact .cons step (ih h')

/-- Nothing happens after a body has been evaluated, whether it has failed or not. -/
theorem Step.final_of_body {x y z : Position} {act : Act} {e : Expr} {failure : Option Abort}
    (h : Step x (.evaluates .body e failure) y) : ¬Step y act z := by
  have hdone : ¬Step .done act z := nofun
  have hstopped : ∀ abort, ¬Step (.stopped abort) act z := nofun
  cases h with
  | plain => exact hdone
  | body => exact hdone
  | fails _ abort => exact hstopped abort

/-- A body is the last thing that is evaluated. -/
theorem Steps.eq_nil_of_body {x y : Position} {before after : List Act} {e : Expr}
    {failure : Option Abort} (h : Steps x (before ++ .evaluates .body e failure :: after) y) :
    after = [] := by
  induction before generalizing x with
  | nil =>
    cases h with
    | cons step rest =>
      cases rest with
      | nil => rfl
      | cons next _ => exact absurd next step.final_of_body
  | cons act before ih =>
    cases h with
    | cons _ rest => exact ih rest

end Position

/-- How far a selection has come that has left a frame. -/
def positionOf : Frame → Option Position
  | .armKeys trial => some (.keys [] trial.arm trial.later)
  | .armRetry trial _ => some (.keys [] trial.arm trial.later)
  | .armGuard trial _ guards => some (.judging guards trial.arm.alternatives trial.later)
  | .alternative trial _ body rest => some (.weighing body rest trial.later)
  | _ => none

theorem looks_of_positionOf {frame : Frame} {x : Position} (h : positionOf frame = some x) :
    x.looks = true := by
  cases frame <;> cases h <;> rfl

/-- The script of a frame is what the engine does, if it is the frame of a selection. -/
theorem resume_eq (context : Context) {frame : Frame} (h : (positionOf frame).isSome) (v : Value)
    (n : Nat) (m : Machine) :
    (engine context (n + 1)).resume frame v m = ((resuming v frame).run context n m).result := by
  have hothers : ∀ trial : Trial, Continues context trial (others trial) :=
    fun trial => select_eq context trial.value trial.unmatched trial.later
  cases frame with
  | armKeys trial => exact result_trying (hothers trial) v.elements n m
  | armRetry trial keys => exact result_trying (hothers trial) keys n m
  | armGuard trial bindings guards =>
    exact result_judged v (result_checking (hothers trial) guards n)
      (result_proceed (hothers trial) n) m
  | alternative trial bindings body rest =>
    exact result_judged v (result_chosen body) (result_choosing (hothers trial) rest n) m
  | _ => cases h

/-- From a position on, whatever is found out, a script keeps to the order, and a frame that it leaves
is for the position where it is left. -/
def Script.Orderly : Script → Position → Prop
  | .evaluate part _ e next, x => ∃ y, x.Step (.evaluates part e none) y ∧ ∀ v, (next v).Orderly y
  | .note act next, x => ∃ y, x.Step act y ∧ next.Orderly y
  | .matching pattern value keys next, x =>
    ∀ sight : Sight, (next (pattern.matching sight value keys)).Orderly x
  | .deeper next, x => next.Orderly x
  | .leave _ frame, x => positionOf frame = some x
  | .gather _ frame, x => positionOf frame = some x
  | .yield _, x => x = .done
  | .fail _, x => x.looks = true
  | .nothing _ _, x => x = .unmatched

/-- A run whose acts lead from one position to another, where it is left to a promise or may end. -/
structure Ran.Leads (r : Ran) (x y : Position) : Prop where
  steps : x.Steps r.acts y
  left : ∀ frame, r.left = some frame → positionOf frame = some y
  ends : r.left = none → y.Ends r.result

namespace Ran.Leads

variable {r : Ran} {x y z : Position}

theorem after {acts : List Act} (h : r.Leads y z) (hacts : x.Steps acts y) : (r.after acts).Leads x z :=
  ⟨hacts.append h.steps, h.left, h.ends⟩

/-- A run that is left to a promise at once. -/
theorem of_left {frame : Frame} (h : positionOf frame = some x)
    (result : EStateM.Result Abort Machine Value) : Leads ⟨result, [], some frame⟩ x x := by
  refine ⟨.nil x, fun frame' hleft => ?_, nofun⟩
  obtain rfl := Option.some.inj hleft
  exact h

/-- A run that ends. -/
theorem of_ends {acts : List Act} {result : EStateM.Result Abort Machine Value}
    (hacts : x.Steps acts y) (h : y.Ends result) : Leads ⟨result, acts, none⟩ x y :=
  ⟨hacts, nofun, fun _ => h⟩

end Ran.Leads

/-- A run of an orderly script is in order, up to where it is left or may end. -/
theorem Script.Orderly.run {s : Script} {x : Position} (h : s.Orderly x) (context : Context) (n : Nat)
    (m : Machine) : ∃ y, (s.run context n m).Leads x y := by
  induction s generalizing x n m with
  | evaluate part bindings e next ih =>
    obtain ⟨y, hstep, hnext⟩ := h
    simp only [Script.run]
    cases part.evaluate (engine context n) bindings e m with
    | ok v m₁ =>
      obtain ⟨z, hz⟩ := ih v (hnext v) n m₁
      exact ⟨z, hz.after (.single hstep)⟩
    | error abort m₁ => exact ⟨_, .of_ends (.single (hstep.fails abort)) (.stopped abort m₁)⟩
  | note act next ih =>
    obtain ⟨y, hstep, hnext⟩ := h
    obtain ⟨z, hz⟩ := ih hnext n m
    exact ⟨z, hz.after (.single hstep)⟩
  | matching pattern value keys next ih => exact ih _ (h m.sight) n m
  | deeper next ih =>
    cases n with
    | zero => exact ⟨x, .of_ends (.nil x) (.outOfFuel x m)⟩
    | succ n => exact ih h n m
  | leave p frame => exact ⟨x, .of_left h _⟩
  | gather keys frame =>
    simp only [Script.run]
    cases Promise.all (engine context n).deliver keys m with
    | ok p m₁ => exact ⟨x, .of_left h _⟩
    | error abort m₁ =>
      exact ⟨_, .of_ends (.single (.faults (looks_of_positionOf h) abort)) (.stopped abort m₁)⟩
  | yield v =>
    obtain rfl : x = .done := h
    exact ⟨_, .of_ends (.nil _) (.done v m)⟩
  | fail e => exact ⟨_, .of_ends (.single (.faults h (.error e))) (.stopped _ m)⟩
  | nothing value unmatched =>
    obtain rfl : x = .unmatched := h
    refine ⟨_, .of_ends (.nil _) ?_⟩
    cases unmatched with
    | noMatch =>
      change Position.Ends _ (EvalM.noMatch value m)
      rcases EvalM.noMatch_cases value m with ⟨text, -, hrun⟩ | ⟨-, hrun⟩
      · rw [hrun]
        exact .unmatched _ m
      · rw [hrun]
        exact .outOfFuel _ m
    | rethrow e => exact .unmatched e m

section

variable {x : Position} {trial : Trial} {bindings : List (String × Value)} {next : Script}

theorem orderly_judged (v : Value) {onTrue onFalse : Script} {y z : Position}
    (htrue : x.Step (.holds true) y) (hfalse : x.Step (.holds false) z) (hx : x.looks = true)
    (honTrue : onTrue.Orderly y) (honFalse : onFalse.Orderly z) :
    (judged v onTrue onFalse).Orderly x := by
  unfold judged
  split
  · exact ⟨y, htrue, honTrue⟩
  · exact ⟨z, hfalse, honFalse⟩
  · exact hx

theorem orderly_ready (v : Value) {frame : Frame} (hframe : positionOf frame = some x)
    (hnext : next.Orderly x) : (ready v frame next).Orderly x := by
  unfold ready
  split
  · exact hframe
  · exact hnext

section

variable (hnext : next.Orderly (.start trial.later))
include hnext

theorem orderly_choosing (alternatives : List (Option Expr × Expr)) :
    (choosing trial bindings next alternatives).Orderly (.fitting [] alternatives trial.later) := by
  induction alternatives with
  | nil => exact ⟨_, .exhausted _, hnext⟩
  | cons alternative rest ih =>
    obtain ⟨guard, body⟩ := alternative
    cases guard with
    | none => exact ⟨_, .plain body rest _, fun _ => rfl⟩
    | some guard =>
      refine ⟨_, .alternative guard body rest _, fun v => orderly_ready v rfl ?_⟩
      exact orderly_judged v (.chooses ..) (.passes ..) rfl ⟨_, .body body, fun _ => rfl⟩ ih

theorem orderly_checking (guards : List Expr) : (checking trial bindings next guards).Orderly
    (.fitting guards trial.arm.alternatives trial.later) := by
  induction guards with
  | nil => exact orderly_choosing hnext _
  | cons guard rest ih =>
    refine ⟨_, .guard guard rest _ _, fun v => orderly_ready v rfl ?_⟩
    exact orderly_judged v (.granted ..) (.denied ..) rfl ih hnext

/-- The guards that are left to be evaluated are those of the pattern. -/
theorem orderly_trying (keys : List Value) :
    (trying trial next keys).Orderly (.keys [] trial.arm trial.later) := by
  intro sight
  cases hverdict : trial.arm.pattern.matching sight trial.value keys with
  | error e => rfl
  | ok verdict =>
    cases verdict with
    | noMatch => exact ⟨_, .misfits .., hnext⟩
    | pending p => rfl
    | matched found =>
      refine ⟨_, .fits .., ?_⟩
      rw [Pattern.guards_of_matched hverdict]
      exact orderly_checking hnext _

theorem orderly_keying (es : List Expr) (keys : List Value) :
    (keying trial next es keys).Orderly (.keys es trial.arm trial.later) := by
  induction es generalizing keys with
  | nil =>
    unfold keying
    split
    · rfl
    · exact orderly_trying hnext keys
  | cons e rest ih => exact ⟨_, .key .., fun v => ih (keys ++ [v])⟩

end

theorem orderly_script (value : Value) (unmatched : Unmatched) (arms : List Arm) :
    (script value unmatched arms).Orderly (.start arms) := by
  induction arms with
  | nil => rfl
  | cons arm later ih =>
    let trial : Trial := ⟨value, arm, later, unmatched⟩
    have hnext : (script value unmatched later).Orderly (.start trial.later) := ih
    exact orderly_keying hnext arm.pattern.keys []

/-- A selection that is taken up again goes on where it was left. -/
theorem orderly_resuming {frame : Frame} (h : positionOf frame = some x) (v : Value) :
    (resuming v frame).Orderly x := by
  have hothers : ∀ trial : Trial, (others trial).Orderly (.start trial.later) :=
    fun trial => orderly_script trial.value trial.unmatched trial.later
  cases frame with
  | armKeys trial =>
    cases h
    exact orderly_trying (hothers trial) v.elements
  | armRetry trial keys =>
    cases h
    exact orderly_trying (hothers trial) keys
  | armGuard trial bindings guards =>
    cases h
    exact orderly_judged v (.granted ..) (.denied ..) rfl (orderly_checking (hothers trial) guards)
      (hothers trial)
  | alternative trial bindings body rest =>
    cases h
    exact orderly_judged v (.chooses ..) (.passes ..) rfl ⟨_, .body body, fun _ => rfl⟩
      (orderly_choosing (hothers trial) rest)
  | _ => cases h

end

/-- What has happened in a selection so far: all its acts, and how its last run has come out. Each time
it is taken up again, the machine, the value and the fuel may be any. -/
inductive Course (context : Context) (value : Value) (unmatched : Unmatched) (arms : List Arm) :
    Ran → Prop
  | start (n : Nat) (m : Machine) :
      Course context value unmatched arms ((script value unmatched arms).run context n m)
  | resume {r : Ran} (h : Course context value unmatched arms r) {frame : Frame}
      (hleft : r.left = some frame) (v : Value) (n : Nat) (m : Machine) :
      Course context value unmatched arms (((resuming v frame).run context n m).after r.acts)

/-- A selection keeps to the order all along. -/
theorem Course.follows {context : Context} {value : Value} {unmatched : Unmatched} {arms : List Arm}
    {r : Ran} (h : Course context value unmatched arms r) : ∃ x, r.Leads (.start arms) x := by
  induction h with
  | start n m => exact (orderly_script value unmatched arms).run context n m
  | resume _ hleft v n m ih =>
    obtain ⟨x, hx⟩ := ih
    obtain ⟨y, hy⟩ := (orderly_resuming (hx.left _ hleft) v).run context n m
    exact ⟨y, hy.after hx.steps⟩

/-! ## Selections in which no arm fits -/

namespace Position

variable {x y z : Position} {act : Act} {acts more : List Act}

/-- What happens determines how far a selection has come. -/
theorem Step.unique (h : Step x act y) (h' : Step x act z) : y = z := by
  cases h <;> cases h' <;> rfl

theorem Steps.unique (h : Steps x acts y) (h' : Steps x acts z) : y = z := by
  induction h with
  | nil =>
    cases h'
    rfl
  | cons step _ ih =>
    cases h' with
    | cons step' rest => exact ih (step.unique step' ▸ rest)

theorem Steps.of_append (h : Steps x (acts ++ more) z) : ∃ y, Steps x acts y ∧ Steps y more z := by
  induction acts generalizing x with
  | nil => exact ⟨x, .nil x, h⟩
  | cons act acts ih =>
    cases h with
    | cons step rest =>
      obtain ⟨y, hacts, hmore⟩ := ih rest
      exact ⟨y, .cons step hacts, hmore⟩

/-- Whoever has got somewhere in one step goes on from there. -/
theorem Steps.of_cons (h : Steps x (act :: acts) z) (step : Step x act y) : Steps y acts z := by
  cases h with
  | cons step' rest => exact step'.unique step ▸ rest

end Position

/-- The frame is one of a selection on this value. -/
def IsOf (value : Value) (unmatched : Unmatched) : Frame → Prop
  | .armKeys trial | .armRetry trial _ | .armGuard trial _ _ | .alternative trial _ _ _ =>
    trial.value = value ∧ trial.unmatched = unmatched
  | _ => False

/-- What the script leaves, and what it comes to without any arms, is of a selection on this value. -/
def Script.Carries (value : Value) (unmatched : Unmatched) : Script → Prop
  | .evaluate _ _ _ next => ∀ v, (next v).Carries value unmatched
  | .note _ next => next.Carries value unmatched
  | .matching _ _ _ next => ∀ verdict, (next verdict).Carries value unmatched
  | .deeper next => next.Carries value unmatched
  | .leave _ frame => IsOf value unmatched frame
  | .gather _ frame => IsOf value unmatched frame
  | .yield _ => True
  | .fail _ => True
  | .nothing v u => v = value ∧ u = unmatched

/-- The run has ended as a selection without any arms does, unless it was out of fuel. -/
def FindsNothing (value : Value) (unmatched : Unmatched)
    (result : EStateM.Result Abort Machine Value) : Prop :=
  ∃ m, result = .error .outOfFuel m ∨ ∃ E : Engine, result = E.select value [] unmatched m

section

variable {value : Value} {unmatched : Unmatched} {trial : Trial} {next : Script}
  {bindings : List (String × Value)}

theorem carries_judged (v : Value) {onTrue onFalse : Script}
    (htrue : onTrue.Carries value unmatched) (hfalse : onFalse.Carries value unmatched) :
    (judged v onTrue onFalse).Carries value unmatched := by
  unfold judged
  split
  · exact htrue
  · exact hfalse
  · trivial

theorem carries_ready (v : Value) {frame : Frame} (hframe : IsOf value unmatched frame)
    (hnext : next.Carries value unmatched) : (ready v frame next).Carries value unmatched := by
  unfold ready
  split
  · exact hframe
  · exact hnext

section

variable (hnext : next.Carries trial.value trial.unmatched)
include hnext

theorem carries_choosing (alternatives : List (Option Expr × Expr)) :
    (choosing trial bindings next alternatives).Carries trial.value trial.unmatched := by
  induction alternatives with
  | nil => exact hnext
  | cons alternative rest ih =>
    obtain ⟨guard, body⟩ := alternative
    cases guard with
    | none => exact fun _ => trivial
    | some guard =>
      exact fun v => carries_ready v ⟨rfl, rfl⟩ (carries_judged v (fun _ => trivial) ih)

theorem carries_checking (guards : List Expr) :
    (checking trial bindings next guards).Carries trial.value trial.unmatched := by
  induction guards with
  | nil => exact carries_choosing hnext _
  | cons guard rest ih => exact fun v => carries_ready v ⟨rfl, rfl⟩ (carries_judged v ih hnext)

theorem carries_trying (keys : List Value) :
    (trying trial next keys).Carries trial.value trial.unmatched := by
  intro verdict
  match verdict with
  | .error e => trivial
  | .ok .noMatch => exact hnext
  | .ok (.pending p) => exact ⟨rfl, rfl⟩
  | .ok (.matched found) => exact carries_checking hnext _

theorem carries_keying (es : List Expr) (keys : List Value) :
    (keying trial next es keys).Carries trial.value trial.unmatched := by
  induction es generalizing keys with
  | nil =>
    unfold keying
    split
    · exact ⟨rfl, rfl⟩
    · exact carries_trying hnext keys
  | cons e rest ih => exact fun v => ih (keys ++ [v])

end

theorem carries_script (value : Value) (unmatched : Unmatched) (arms : List Arm) :
    (script value unmatched arms).Carries value unmatched := by
  induction arms with
  | nil => exact ⟨rfl, rfl⟩
  | cons arm later ih =>
    let trial : Trial := ⟨value, arm, later, unmatched⟩
    have hnext : (script value unmatched later).Carries trial.value trial.unmatched := ih
    exact carries_keying hnext arm.pattern.keys []

theorem carries_resuming {frame : Frame} (h : IsOf value unmatched frame) (v : Value) :
    (resuming v frame).Carries value unmatched := by
  have hothers : ∀ trial : Trial, (others trial).Carries trial.value trial.unmatched :=
    fun trial => carries_script trial.value trial.unmatched trial.later
  cases frame with
  | armKeys trial =>
    obtain ⟨rfl, rfl⟩ := h
    exact carries_trying (hothers trial) v.elements
  | armRetry trial keys =>
    obtain ⟨rfl, rfl⟩ := h
    exact carries_trying (hothers trial) keys
  | armGuard trial bindings guards =>
    obtain ⟨rfl, rfl⟩ := h
    exact carries_judged v (carries_checking (hothers trial) guards) (hothers trial)
  | alternative trial bindings body rest =>
    obtain ⟨rfl, rfl⟩ := h
    exact carries_judged v (fun _ => trivial) (carries_choosing (hothers trial) rest)
  | _ => exact h.elim

/-- A run by whose acts no arm fits has ended as if there were none. -/
theorem Script.Orderly.finds_nothing {s : Script} {x : Position} (h : s.Orderly x)
    (hs : s.Carries value unmatched) (context : Context) (n : Nat) (m : Machine) :
    (∀ frame, (s.run context n m).left = some frame → IsOf value unmatched frame) ∧
      (x.Steps (s.run context n m).acts .unmatched → (s.run context n m).left = none →
        FindsNothing value unmatched (s.run context n m).result) := by
  have hstopped : ∀ {y act z}, Position.Step y act (.stopped z) → ¬y.Steps [act] .unmatched :=
    fun step hsteps => by cases hsteps.of_cons step
  induction s generalizing x n m with
  | evaluate part bindings e next ih =>
    obtain ⟨y, hstep, hnext⟩ := h
    simp only [Script.run]
    cases part.evaluate (engine context n) bindings e m with
    | ok v m₁ =>
      obtain ⟨hleft, hends⟩ := ih v (hnext v) (hs v) n m₁
      exact ⟨hleft, fun hsteps => hends (hsteps.of_cons hstep)⟩
    | error abort m₁ =>
      exact ⟨(fun _ hleft => by cases hleft), fun hsteps => absurd hsteps (hstopped (hstep.fails abort))⟩
  | note act next ih =>
    obtain ⟨y, hstep, hnext⟩ := h
    obtain ⟨hleft, hends⟩ := ih hnext hs n m
    exact ⟨hleft, fun hsteps => hends (hsteps.of_cons hstep)⟩
  | matching pattern value keys next ih => exact ih _ (h m.sight) (hs _) n m
  | deeper next ih =>
    cases n with
    | zero => exact ⟨(fun _ hleft => by cases hleft), fun _ _ => ⟨m, .inl rfl⟩⟩
    | succ n => exact ih h hs n m
  | leave p frame =>
    refine ⟨fun frame' hleft => ?_, fun _ hleft => by cases hleft⟩
    obtain rfl := Option.some.inj hleft
    exact hs
  | gather keys frame =>
    simp only [Script.run]
    cases Promise.all (engine context n).deliver keys m with
    | ok p m₁ =>
      refine ⟨fun frame' hleft => ?_, fun _ hleft => by cases hleft⟩
      obtain rfl := Option.some.inj hleft
      exact hs
    | error abort m₁ =>
      have hfaults := Position.Step.faults (looks_of_positionOf h) abort
      exact ⟨(fun _ hleft => by cases hleft), fun hsteps => absurd hsteps (hstopped hfaults)⟩
  | yield v =>
    obtain rfl : x = .done := h
    exact ⟨(fun _ hleft => by cases hleft), fun hsteps => by cases hsteps⟩
  | fail e =>
    exact ⟨(fun _ hleft => by cases hleft),
      fun hsteps => absurd hsteps (hstopped (.faults h (.error e)))⟩
  | nothing v u =>
    obtain ⟨rfl, rfl⟩ := hs
    exact ⟨(fun _ hleft => by cases hleft), fun _ _ => ⟨m, .inr ⟨engine context n, rfl⟩⟩⟩

/-- If no arm fits, then however often the selection was left to a promise, it ends as it does without
any arms. -/
theorem Course.finds_nothing {context : Context} {arms : List Arm} {r : Ran}
    (h : Course context value unmatched arms r) (hleft : r.left = none)
    (hsteps : Position.Steps (.start arms) r.acts .unmatched) :
    FindsNothing value unmatched r.result := by
  have hall : (∀ frame, r.left = some frame → IsOf value unmatched frame) ∧
      (Position.Steps (.start arms) r.acts .unmatched → r.left = none →
        FindsNothing value unmatched r.result) := by
    clear hleft hsteps
    induction h with
    | start n m => exact (orderly_script ..).finds_nothing (carries_script ..) context n m
    | resume hcourse hleft v n m ih =>
      obtain ⟨x, hx⟩ := hcourse.follows
      obtain ⟨hframe, hends⟩ := (orderly_resuming (hx.left _ hleft) v).finds_nothing
        (carries_resuming (ih.1 _ hleft) v) context n m
      refine ⟨hframe, fun hsteps => ?_⟩
      obtain ⟨y, hbefore, hafter⟩ := Position.Steps.of_append hsteps
      exact hends (hbefore.unique hx.steps ▸ hafter)
  exact hall.2 hsteps hleft

end

end Deferral.Selection
