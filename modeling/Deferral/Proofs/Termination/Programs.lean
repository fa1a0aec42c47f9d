import Deferral.Proofs.Session.Reach
import Deferral.Proofs.Termination.Constructs

/-!
# Every program terminates

Evaluating an expression in a reachable session comes to an end, and so does whatever the host does
afterwards with the tasks that are queued and the promises that are pending
(`every_program_terminates`). What is left over of the potential bounds the number of tasks. A host that
goes on and on giving promises to promises adds to the potential each time; but prices can be set at any
scale, and at a large scale all that the host adds is worth less than a single task. So the bound does
not depend on what the host does (`HostStep.tasks_le`).

There is one exception. A promise can come to be inside of itself, in a tuple or another collection, and
then it has no text; a program that fails with an error about it never ends (`undone_never_ends`).
-/

set_option autoImplicit false

namespace Deferral

open Outcomes

/-! ## Prices at another scale -/

namespace Tariff

/-- The tariff with tasks that are worth so many times as much. -/
def scaled (T : Tariff) (M : Nat) : Tariff := { T with scale := M * T.scale }

variable (T : Tariff) (M : Nat)

theorem price_scaled (room : Nat) : (T.scaled M).price room = M * T.price room := by
  induction room with
  | zero => exact Nat.mul_left_comm 16 M T.scale
  | succ room ih =>
    rw [price, price, ih, Nat.mul_add, Nat.mul_left_comm M 16, Nat.mul_left_comm M T.code]
    rfl

theorem rate_scaled (d : Nat) : (T.scaled M).rate d = M * T.rate d := T.price_scaled M _

theorem callCost_scaled (d : Nat) : (T.scaled M).callCost d = M * T.callCost d := by
  unfold callCost
  change (T.scaled M).bodyPrice (T.maxCallDepth - d) = _
  cases T.maxCallDepth - d with
  | zero => rfl
  | succ room =>
    rw [bodyPrice, bodyPrice, price_scaled, Nat.mul_left_comm]
    rfl

end Tariff

section Scaled

variable {T : Tariff} {M : Nat} {σ : Outcomes}

theorem Tariff.taskCost_scaled_le (hM : 1 ≤ M) (d : Nat) :
    (T.scaled M).taskCost d ≤ M * T.taskCost d := by
  have hscale : (T.scaled M).scale = M * T.scale := rfl
  rw [taskCost, taskCost, callCost_scaled, hscale, Nat.mul_add, Nat.mul_add]
  omega

theorem Frame.cost_scaled_le (hM : 1 ≤ M) (frame : Frame) (env : Environment) :
    frame.cost (T.scaled M) σ env ≤ M * frame.cost T σ env := by
  have hle : ∀ n, n ≤ M * n := fun n => Nat.le_mul_of_pos_left n hM
  have hextra : frame.extra (T.scaled M) σ env ≤ M * frame.extra T σ env := by
    cases frame with
    | call args location =>
      have hlength := hle args.length
      simp only [extra, Tariff.callCost_scaled, Nat.mul_add]
      omega
    | spawn => exact Tariff.taskCost_scaled_le hM _
    | _ => exact hle _
  simp only [cost, Tariff.rate_scaled, Nat.mul_add, Nat.mul_left_comm M]
  omega

theorem Handler.cost_scaled_le (hM : 1 ≤ M) (h : Handler) : h.cost (T.scaled M) σ ≤ M * h.cost T σ := by
  cases h with
  | resume frame env => exact frame.cost_scaled_le hM env
  | recover arms env => simp only [cost, Tariff.rate_scaled, Nat.mul_left_comm M, Nat.le_refl]
  | apply function env =>
    simp only [cost, Tariff.callCost_scaled, Nat.mul_add]
    omega
  | applyEither function env =>
    simp only [cost, Tariff.callCost_scaled, Nat.mul_add]
    omega
  | compute operation => exact Nat.zero_le _
  | report label => exact Nat.zero_le _

theorem Continuation.cost_scaled_le (hM : 1 ≤ M) (k : Continuation Handler) :
    k.cost (T.scaled M) σ ≤ M * k.cost T σ := by
  cases k with
  | adopt target => exact Nat.le_mul_of_pos_left 1 hM
  | gather id place => exact Nat.le_mul_of_pos_left 1 hM
  | derive target handler =>
    have := handler.cost_scaled_le (T := T) (σ := σ) hM
    rw [cost, cost, Nat.mul_add]
    omega
  | notify handler =>
    have := handler.cost_scaled_le (T := T) (σ := σ) hM
    rw [cost, cost, Nat.mul_add]
    omega

theorem owed_scaled_le (hM : 1 ≤ M) (p : PromiseId) (k : Continuation Handler) :
    owed (T.scaled M) σ p k ≤ M * owed T σ p k :=
  owed_le fun _ hσ hp => (k.cost_scaled_le hM).trans (Nat.mul_le_mul_left M (cost_le_owed hσ hp))

theorem Machine.potential_scaled_le (hM : 1 ≤ M) (m : Machine) :
    m.potential (T.scaled M) ≤ M * m.potential T := by
  have hdebt : debt (T.scaled M) m.store.outcome? m.store.waits ≤
      M * debt T m.store.outcome? m.store.waits := by
    induction m.store.waits using Multiset.induction with
    | empty => exact Nat.zero_le _
    | cons e rest ih =>
      have he := owed_scaled_le (T := T) (σ := m.store.outcome?) hM e.1 e.2
      rw [debt_cons (p := e.1) (k := e.2), debt_cons (p := e.1) (k := e.2), Nat.mul_add]
      omega
  have htasks : Machine.tasksCost (T.scaled M) m.rest.queue ≤ M * Machine.tasksCost T m.rest.queue := by
    induction m.rest.queue with
    | nil => exact Nat.zero_le _
    | cons task rest ih =>
      have htask := Tariff.taskCost_scaled_le (T := T) hM task.caller.callDepth
      simp only [Machine.tasksCost, List.map_cons, List.sum_cons, Nat.mul_add] at ih ⊢
      omega
  rw [potential, potential, Nat.mul_add]
  omega

end Scaled

/-- The size of the code of a function. -/
noncomputable def Function.codeSize (f : Function) : Nat :=
  match f.body with
  | .code _ body => sizeOf body
  | .native .. => 0

namespace Machine

variable {T T' : Tariff} {m : Machine}

theorem Sane.of_code_eq (h : m.Sane T) (hcode : T'.code = T.code) : m.Sane T' :=
  ⟨h.flat, fun id f params body hf hbody => hcode ▸ h.functions id f params body hf hbody,
    fun e he => hcode ▸ h.suspended e he⟩

/-- There is a bound on all the code in a machine. -/
theorem exists_sane (hm : m.store.Flat) (least : Nat) :
    ∃ code, least ≤ code ∧ ∀ T : Tariff, T.code = code → m.Sane T := by
  -- a sum is the simplest bound; nothing depends on how good it is
  let functions := (m.rest.functions.toList.map Function.codeSize).sum
  let suspended := (m.store.waits.map fun e => e.2.size).sum
  refine ⟨least + functions + suspended, by omega, fun T hT => ⟨hm, ?_, ?_⟩⟩
  · intro id f params body hf hbody
    have hmem : f ∈ m.rest.functions.toList := Array.mem_toList_iff.2 (Array.mem_of_getElem? hf)
    have hsize : f.codeSize ≤ functions := List.le_sum_of_mem (List.mem_map.2 ⟨f, hmem, rfl⟩)
    rw [Function.codeSize, hbody] at hsize
    dsimp only at hsize
    omega
  · intro e he
    have hmem : e.2.size ∈ m.store.waits.map fun e => e.2.size := Multiset.mem_map_of_mem _ he
    have hsize : e.2.size ≤ suspended := Multiset.le_sum_of_mem hmem
    omega

/-- Each task that waits is worth the scale of the tariff. -/
theorem scale_mul_length_le (T : Tariff) (m : Machine) :
    T.scale * m.rest.queue.length ≤ m.potential T := by
  have htasks : T.scale * m.rest.queue.length ≤ Machine.tasksCost T m.rest.queue := by
    induction m.rest.queue with
    | nil => exact Nat.le_refl _
    | cons task rest ih =>
      simp only [Machine.tasksCost, List.map_cons, List.sum_cons, List.length_cons, Nat.mul_add,
        Tariff.taskCost] at ih ⊢
      omega
  exact htasks.trans (Nat.le_add_left _ _)

end Machine

/-! ## What a host does -/

/-- A thing that a host does with what a program has left behind. -/
inductive HostStep where
  /-- Run the task at a place of the queue. -/
  | run (place : Nat)
  /-- Give an outcome to a promise. -/
  | fulfil (p : PromiseId) (o : Outcome)

namespace HostStep

/-- The task that a step takes out of the queue. -/
def task? (m : Machine) : HostStep → Option Task
  | .run place => m.rest.queue[place]?
  | .fulfil .. => none

/-- Takes a step. -/
def perform (E : Engine) : HostStep → EvalM Unit
  | .run place => do
    match ← EvalM.gets (·.rest.queue[place]?) with
    | some task => do
      EvalM.modifyRest fun s => { s with queue := s.queue.eraseIdx place }
      E.runTask task
    | none => pure ()
  | .fulfil p o => Promise.fulfil E.deliver p o

end HostStep

/-- What has come of the steps of a host. -/
structure Activity where
  /-- How each of the steps has ended. -/
  endings : List (EStateM.Result Abort Machine Unit)
  /-- The tasks that were run. -/
  tasks : List Task
  /-- The machine after the last step. -/
  machine : Machine

/-- Takes steps one after the other. Each starts from the machine that the one before has left, however
that has ended. -/
def HostStep.performAll (E : Engine) : List HostStep → Machine → Activity
  | [], m => ⟨[], [], m⟩
  | step :: rest, m =>
    let ending := step.perform E m
    let later := performAll E rest (finalWorld ending)
    ⟨ending :: later.endings, (step.task? m).toList ++ later.tasks, later.machine⟩

/-- The run ended: with a result, with an error, or with a panic of the host's own. It may lack fuel only
where some promise is inside of itself. -/
def Concludes (context : Context) {α : Type} : EStateM.Result Abort Machine α → Prop
  | .ok _ _ => True
  | .error (.error _) _ => True
  | .error (.panic payload) _ => context.Panics payload
  | .error .outOfFuel m => Tangled m.store.outcome?

/-- With enough fuel, it comes to this. -/
def Converges {β : Type} (x : Nat → β) (b : β) : Prop := ∃ N, ∀ n, N ≤ n → x n = b

variable {context : Context} {T : Tariff} {m : Machine} {α : Type}

theorem Ends.concludes {ρ : Environment → Environment → Prop} {r : EStateM.Result Abort Machine α}
    (h : Ends context ρ m r) (hr : ¬RanOut r) : Concludes context r := by
  match r, h, hr with
  | .ok _ _, _, _ => trivial
  | .error (.error _) _, _, _ => trivial
  | .error (.panic payload) m', h, _ => exact h.panics payload m' rfl
  | .error .outOfFuel m', _, hr =>
    rw [ranOut_error] at hr
    exact Classical.not_not.1 fun hfree => hr ⟨rfl, hfree⟩

/-- What can be afforded, of computations that behave, concludes. -/
theorem Affords.concludes {x : Nat → EvalM α} {b : Nat} {ρ : Environment → Environment → Prop}
    (h : Affords T x m b) (hx : ∀ n, Conduct context ρ (x n)) :
    ∃ r, Converges (fun n => x n m) r ∧ Concludes context r ∧ Spent T m b (finalWorld r) := by
  obtain ⟨r, N, hrun, hr, hspent⟩ := h
  have hends : Ends context ρ m r := hrun N (Nat.le_refl N) ▸ hx N m
  exact ⟨r, ⟨N, hrun⟩, hends.concludes hr, hspent⟩

theorem conduct_runTask (n : Nat) (task : Task) :
    Conduct context (· = ·) ((engine context n).runTask task) := by
  have h : Conduct (engine context n).context (· = ·) ((engine context n).runTask task) :=
    (conducted_engine context n).runTask task
  rwa [engine_context] at h

theorem HostStep.conduct (n : Nat) (step : HostStep) :
    Conduct context (· = ·) (step.perform (engine context n)) := by
  cases step with
  | run place =>
    refine .bind (.gets _) fun task => ?_
    cases task with
    | none => exact .pure ()
    | some task =>
      exact .bind (fun m => .ok (.single (.queue m _)) rfl) fun _ => conduct_runTask n task
  | fulfil p o =>
    have hd := (conducted_engine context n).deliver
    rw [engine_context] at hd
    exact Conduct.composed.fulfil hd p o

theorem tasksCost_eraseIdx {queue : List Task} {place : Nat} {task : Task}
    (h : queue[place]? = some task) :
    Machine.tasksCost T (queue.eraseIdx place) + T.taskCost task.caller.callDepth =
      Machine.tasksCost T queue := by
  obtain ⟨hlt, rfl⟩ := List.getElem?_eq_some_iff.1 h
  have hperm := (List.getElem_cons_eraseIdx_perm hlt).map fun t : Task => T.taskCost t.caller.callDepth
  have hsum := hperm.sum_eq
  rw [List.map_cons, List.sum_cons] at hsum
  rw [Machine.tasksCost, Machine.tasksCost, ← hsum, Nat.add_comm]

/-- A step terminates. One that runs a task uses up what the task is worth, and any other adds at most
one to the potential. -/
theorem HostStep.terminates (hlimit : T.maxCallDepth = context.maxCallDepth) (hscale : 1 ≤ T.scale)
    (hm : m.Sane T) (step : HostStep) :
    ∃ r, Converges (fun n => step.perform (engine context n) m) r ∧ Concludes context r ∧
      Machine.Sane T (finalWorld r) ∧
      Machine.potential T (finalWorld r) + T.scale * (step.task? m).toList.length ≤
        m.potential T + 1 := by
  have hsustains := sustains_engine hlimit hscale
  have hconduct : ∀ n, Conduct context (· = ·) (step.perform (engine context n)) :=
    fun n => step.conduct n
  cases step with
  | fulfil p o =>
    have hpays := (hsustains _).deliver.fulfil p o m hm rfl (Nat.le_refl _)
    obtain ⟨r, hr, hconcludes, hspent⟩ := hpays.concludes hconduct
    exact ⟨r, hr, hconcludes, hspent.sane, hspent.potential⟩
  | run place =>
    cases htask : m.rest.queue[place]? with
    | none =>
      have hidle : ∀ n, (HostStep.run place).perform (engine context n) m = .ok () m := by
        intro n
        simp only [perform, EvalM.gets, Bind.bind, EStateM.bind, htask]
        rfl
      refine ⟨.ok () m, ⟨0, fun n _ => hidle n⟩, trivial, hm, ?_⟩
      simp only [task?, htask]
      exact Nat.le_succ _
    | some task =>
      let m' := m.withQueue (m.rest.queue.eraseIdx place)
      have hrun : ∀ n, (HostStep.run place).perform (engine context n) m =
          (engine context n).runTask task m' := by
        intro n
        simp only [perform, EvalM.gets, Bind.bind, EStateM.bind, htask]
        rfl
      have hpotential : m'.potential T + T.taskCost task.caller.callDepth = m.potential T := by
        have hqueue := tasksCost_eraseIdx (T := T) htask
        change debt T m.store.outcome? m.store.waits +
          Machine.tasksCost T (m.rest.queue.eraseIdx place) + _ =
            debt T m.store.outcome? m.store.waits + Machine.tasksCost T m.rest.queue
        omega
      have hm' : m'.Sane T := ⟨hm.flat, hm.functions, hm.suspended⟩
      have hpays := (hsustains _).runTask task m' hm' rfl (Nat.le_refl _)
      obtain ⟨r, ⟨N, hr⟩, hconcludes, hspent⟩ := hpays.concludes fun n => conduct_runTask n task
      refine ⟨r, ⟨N, fun n hn => (hrun n).trans (hr n hn)⟩, hconcludes, hspent.sane, ?_⟩
      have hspent := hspent.potential
      simp only [task?, htask, Option.toList_some, List.length_singleton, Nat.mul_one]
      rw [Tariff.taskCost] at hpotential
      omega

/-- Steps terminate one after the other, and all tasks that are run are paid for. -/
theorem HostStep.performAll_terminates (hlimit : T.maxCallDepth = context.maxCallDepth)
    (hscale : 1 ≤ T.scale) (hm : m.Sane T) (steps : List HostStep) :
    ∃ a, Converges (fun n => performAll (engine context n) steps m) a ∧
      (∀ r ∈ a.endings, Concludes context r) ∧
      a.machine.potential T + T.scale * a.tasks.length ≤ m.potential T + steps.length := by
  induction steps generalizing m with
  | nil => exact ⟨⟨[], [], m⟩, ⟨0, fun _ _ => rfl⟩, fun _ h => (List.not_mem_nil h).elim, Nat.le_refl _⟩
  | cons step rest ih =>
    obtain ⟨r, ⟨N, hr⟩, hconcludes, hsane, hpotential⟩ := step.terminates hlimit hscale hm
    obtain ⟨a, ⟨N', ha⟩, hendings, hlater⟩ := ih hsane
    refine ⟨⟨r :: a.endings, (step.task? m).toList ++ a.tasks, a.machine⟩,
      ⟨max N N', fun n hn => ?_⟩, ?_, ?_⟩
    · have hr' : step.perform (engine context n) m = r := hr n (by omega)
      have ha' : performAll (engine context n) rest (finalWorld r) = a := ha n (by omega)
      simp only [performAll, hr', ha']
    · intro r' hr'
      rcases List.mem_cons.1 hr' with rfl | hr'
      · exact hconcludes
      · exact hendings r' hr'
    · rw [List.length_append, Nat.mul_add, List.length_cons]
      dsimp only
      omega

/-- However many steps the host takes, the number of tasks is bounded by the potential at the start: at
a scale above the number of steps, all that these add is less than one task. -/
theorem HostStep.tasks_le (hlimit : T.maxCallDepth = context.maxCallDepth) (hscale : T.scale = 1)
    (hm : m.Sane T) (steps : List HostStep) :
    ∃ a, Converges (fun n => performAll (engine context n) steps m) a ∧
      (∀ r ∈ a.endings, Concludes context r) ∧
      a.tasks.length + a.machine.rest.queue.length ≤ m.potential T := by
  let M := steps.length + 1
  have hscaled : (T.scaled M).scale = M := by
    change M * T.scale = M
    rw [hscale, Nat.mul_one]
  obtain ⟨a, hconverges, hendings, hspent⟩ := performAll_terminates (T := T.scaled M) hlimit
    (by omega) (hm.of_code_eq rfl) steps
  refine ⟨a, hconverges, hendings, ?_⟩
  have hstart : m.potential (T.scaled M) ≤ M * m.potential T := m.potential_scaled_le (by omega)
  have hqueue := Machine.scale_mul_length_le (T.scaled M) a.machine
  rw [hscaled] at hspent hqueue
  have htotal : M * (a.tasks.length + a.machine.rest.queue.length) < M * (m.potential T + 1) := by
    rw [Nat.mul_add, Nat.mul_add]
    omega
  exact Nat.le_of_lt_succ (Nat.lt_of_mul_lt_mul_left htotal)

/-! ## Programs -/

/-- Evaluating the expression comes to an end, and so does each step of a host that goes on to run the
tasks that are queued, in any order, and to give outcomes to promises, as often as it likes, unless some
promise is inside of itself. However long the host goes on, the tasks that it has run and those that are
left in the queue do not exceed a bound. -/
def Terminates (context : Context) (e : Expr) (m : Machine) : Prop :=
  ∃ r, Converges (fun n => (engine context n).eval e m) r ∧ Concludes context r ∧
    ∃ bound, ∀ steps, ∃ a,
      Converges (fun n => HostStep.performAll (engine context n) steps (finalWorld r)) a ∧
      (∀ r ∈ a.endings, Concludes context r) ∧
      a.tasks.length + a.machine.rest.queue.length ≤ bound

/-- Every program terminates: in every session that a host can reach, every expression in every
environment. Only where some promise has come to be inside of itself there may be no end. -/
theorem every_program_terminates {s : Session} (hs : s.Reachable) (env : Environment) (e : Expr) :
    Terminates s.context e (s.machine.withEnv env) := by
  obtain ⟨code, hcode, hsane⟩ := Machine.exists_sane (m := s.machine.withEnv env) hs.flat (sizeOf e)
  let T : Tariff := ⟨s.context.maxCallDepth, code, 1⟩
  have hconduct : ∀ n, Conduct s.context (· = ·) ((engine s.context n).eval e) := by
    intro n
    have h := (conducted_engine s.context n).eval e
    rwa [engine_context] at h
  have hlimit : T.maxCallDepth = s.context.maxCallDepth := rfl
  have hpays := (sustains_engine hlimit (Nat.le_refl 1) _).eval _ e hcode (s.machine.withEnv env)
    (hsane T rfl) rfl (Nat.le_refl _)
  obtain ⟨r, hconverges, hconcludes, hspent⟩ := hpays.concludes hconduct
  exact ⟨r, hconverges, hconcludes, Machine.potential T (finalWorld r), fun steps =>
    HostStep.tasks_le hlimit rfl hspent.sane steps⟩

/-- A function that starts itself as a task, waits for a promise by the name of `gate` and calls itself
again. -/
def swarm : Expr :=
  .letIn [(.bind "swarm", .lambda none []
      (.block [.run (.spawn (.identifier "swarm")),
        .bind (.literal (.bool true)) (.identifier "gate"),
        .run (.call (.identifier "swarm") [] none)]))]
    (.call (.identifier "swarm") [] none)

/-- A session that queues its tasks and holds a promise that is observed but not settled. -/
def gatedSession : Session :=
  (((Session.start .queued 3 true true).run (.promise "gate" none false)).1.run
    (.observe "gate" "opened")).1

theorem every_program_terminates_swarm :
    gatedSession.Reachable ∧
      Terminates gatedSession.context swarm (gatedSession.machine.withEnv gatedSession.environment) := by
  have hreachable : gatedSession.Reachable := .run (.run (.start .queued 3 true true) _) _
  exact ⟨hreachable, every_program_terminates hreachable gatedSession.environment swarm⟩

/-! ### A promise inside of itself -/

theorem Session.Reachable.foldl {s : Session} (hs : s.Reachable) (commands : List Command) :
    (commands.foldl (fun s c => (s.run c).1) s).Reachable := by
  induction commands generalizing s with
  | nil => exact hs
  | cons c rest ih => exact ih (.run hs c)

/-- The promise `t` is pending when it is put into a tuple that `p` is given. Then it becomes what `p`
is, so it is in the tuple that it holds. -/
def knotted : Session :=
  ([.promise "a" none false, .promise "p" none false,
    .map "t" "a" (.lambda none ["x"] (.identifier "p")) false,
    .fulfil "p" (.ok (.tuple [.promise ⟨2⟩])), .fulfil "a" (.ok (.int 1))] : List Command).foldl
      (fun s c => (s.run c).1) (Session.start .immediate 1000 true true)

/-- `try (case t of 1 -> 2) with (_, _, _) -> 3`. -/
def undone : Expr :=
  .attempt (.select (.identifier "t") [.mk (.literal (.int 1)) [(none, .literal (.int 2))]])
    [.mk (.tuple [.wildcard, .wildcard, .wildcard]) [(none, .literal (.int 3))]]

/-- No arm of the selection fits, and the text of the error does not end. -/
theorem undone_never_ends : knotted.Reachable ∧ ∀ n, ∃ m,
    (engine knotted.context n).eval undone knotted.machine = .error .outOfFuel m := by
  refine ⟨(Session.Reachable.start .immediate 1000 true true).foldl _, fun n => ?_⟩
  -- with less fuel the evaluation does not come as far as the error
  rcases n with _ | _ | _ | _ | _ | n <;> exact ⟨_, rfl⟩

end Deferral
