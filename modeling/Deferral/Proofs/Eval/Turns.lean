import Deferral.Proofs.Eval.Protocol
import Deferral.Proofs.Session.Beside

/-!
# What a host lets happen

Between two looks at a machine a host takes `Turn`s: it gives a promise an outcome, evaluates code, or
has tasks run. A protocol is kept by every turn that comes to its end and does not settle by hand what
is the protocol's own (`Protocol.runAll`).
-/

set_option autoImplicit false

namespace Deferral

/-- Something that a host lets happen. -/
inductive Turn where
  | fulfil (p : PromiseId) (o : Outcome)
  /-- Evaluate something; an error is a result like any other. -/
  | eval (e : Expr)
  /-- Run some of the tasks that wait. -/
  | runTasks (count : Nat) (fromBack : Bool)

namespace Turn

def run (E : Engine) : Turn → EvalM Unit
  | .fulfil p o => Promise.fulfil E.deliver p o
  | .eval e => do
    let _ ← EvalM.outcome (E.eval e)
  | .runTasks count fromBack => do
    let _ ← Session.drain E fromBack count 0

/-- Takes turns one after the other. -/
def runAll (E : Engine) : List Turn → EvalM Unit
  | [] => pure ()
  | turn :: rest => do
    turn.run E
    runAll E rest

/-- The turns do not settle by hand what is in other hands. -/
def Spare (own : PromiseId → Prop) (turns : List Turn) : Prop := ∀ p o, .fulfil p o ∈ turns → ¬own p

end Turn

namespace Protocol

variable {context : Context} {q : PromiseId} {P : Protocol context q} (hq : P.Counts) {n d : Nat}
  {m m' : Machine}
include hq

theorem passes {α : Type} {x y : EvalM α} {settings : Context}
    {ρ : Environment → Environment → Prop} {F : InFlight} (hinv : P.Inv F d m) (twin : Twin d m m')
    (hx : ∀ R : Pairing, R.label = .plain → q.index < R.fence.promises →
      Parallel R m.rest.env.module x y) (hconduct : Conduct settings ρ x) :
    Tally (P.Inv F) (x m) (y m') := by
  refine (tally_parallel (hq _ _ _ hinv) twin hx hconduct).mono fun d' m₁ h => ?_
  obtain ⟨rfl, hpassed⟩ := h
  exact P.passed hinv hpassed

theorem eval (hinv : P.Inv 0 d m) (twin : Twin d m m') (e : Expr) :
    Tally (P.Inv 0) (EvalM.outcome ((engine context n).eval e) m)
      (EvalM.outcome ((observed q context n).eval e) m') := by
  refine passes hq hinv twin (fun R hplain hold => .outcome ?_)
    (.outcome ((conducted_engine context n).eval e))
  have heval := (abreast_observed hplain hold context n).eval e m.rest.env.module
  rwa [hplain, Expr.relabel_plain] at heval

theorem runTask {task : Task} (hinv : P.Inv 0 d m) (htask : ¬P.Own task.target)
    (twin : Twin d m m') :
    Tally (P.Inv 0) ((engine context n).runTask task m) ((observed q context n).runTask task m') := by
  have hconduct : Conduct (engine context n).context (· = ·) (EvalM.contained
      (EvalM.within task.caller ((engine context n).callValue (.function task.function) [] none))) :=
    .contained (.within ((conducted_engine context n).callValue (ρ := (· = ·)) _ _ _) _)
  have hcall : Tally (P.Inv 0) _ _ := passes hq hinv twin
    (fun R hplain hold => .contained (.within (.refl _)
      ((abreast_observed hplain hold context n).callValue (.function task.function) [] none))) hconduct
  exact hcall.bind fun o d₁ m₁ m₁' _ hinv₁ twin₁ => fulfil (P.kept hq n) (P.give hinv₁ htask) twin₁

theorem drain (fromBack : Bool) (limit count : Nat) {d : Nat} {m m' : Machine} (hinv : P.Inv 0 d m)
    (twin : Twin d m m') :
    Tally (P.Inv 0) (Session.drain (engine context n) fromBack limit count m)
      (Session.drain (observed q context n) fromBack limit count m') := by
  induction limit generalizing count d m m' with
  | zero => exact .ok count hinv twin
  | succ limit ih =>
    have htaken : Session.takeTask fromBack m'.rest.queue = Session.takeTask fromBack m.rest.queue :=
      by rw [twin.queue]
    simp only [Session.drain, EvalM.gets, Bind.bind, EStateM.bind, htaken]
    cases hfound : Session.takeTask fromBack m.rest.queue with
    | none => exact .ok count hinv twin
    | some taken =>
      obtain ⟨task, rest⟩ := taken
      obtain ⟨htask, hrest⟩ := Session.mem_of_takeTask hfound
      have hrun : Tally (P.Inv 0) ((engine context n).runTask task (m.withQueue rest)) _ :=
        runTask hq (P.dequeue hinv hrest) (P.tasks hinv task htask) (twin.withQueue rest)
      exact hrun.bind fun _ d₁ m₁ m₁' _ hinv₁ twin₁ => ih (count + 1) hinv₁ twin₁

theorem run {turn : Turn} (hinv : P.Inv 0 d m) (hspare : ∀ p o, turn = .fulfil p o → ¬P.Own p)
    (twin : Twin d m m') :
    Tally (P.Inv 0) (turn.run (engine context n) m) (turn.run (observed q context n) m') := by
  cases turn with
  | fulfil p o => exact fulfil (P.kept hq n) (P.give hinv (hspare p o rfl)) twin
  | eval e => exact (eval hq hinv twin e).bind fun _ _ _ _ _ hinv₁ twin₁ => .ok () hinv₁ twin₁
  | runTasks count fromBack =>
    exact (drain hq fromBack count 0 hinv twin).bind fun _ _ _ _ _ hinv₁ twin₁ => .ok () hinv₁ twin₁

/-- A protocol is kept by any number of turns that come to their end. -/
theorem runAll {turns : List Turn} {d : Nat} {m m' : Machine} (hinv : P.Inv 0 d m)
    (hspare : Turn.Spare P.Own turns) (twin : Twin d m m') :
    Tally (P.Inv 0) (Turn.runAll (engine context n) turns m)
      (Turn.runAll (observed q context n) turns m') := by
  induction turns generalizing d m m' with
  | nil => exact .ok () hinv twin
  | cons turn rest ih =>
    refine (run hq hinv (fun p o he => hspare p o (he ▸ .head _)) twin).bind
      fun _ d₁ m₁ m₁' _ hinv₁ twin₁ => ?_
    exact ih hinv₁ (fun p o hmem => hspare p o (.tail _ hmem)) twin₁

end Protocol

end Deferral
