import Mathlib.Algebra.Order.BigOperators.Group.Multiset
import Deferral.Proofs.Eval.Run
import Deferral.Proofs.Pattern.Patience
import Deferral.Proofs.Promise.Settlement
import Deferral.Proofs.Promise.Waiting

/-!
# What work costs

A tariff sets a price on everything that a machine has left to do, so that whatever runs pays for what
it starts. Evaluating an expression costs its size times the *rate* of the depth of calls that it runs
at. A call at one depth runs code of bounded size at the next, so the rate of a depth is high enough to
pay for all of that (`Tariff.rate_eq`); at the limit of calls there is nothing left to pay for. What
hands an outcome on costs a little by itself.

A match that waits is tried again; what that costs depends on how often it may still have to wait, and
so on the outcomes that are known. `owed` is what a continuation can cost at most by the time when the
promise that it waits for is settled. The `potential` of a machine adds up what is owed to all
continuations that wait and what the queued tasks cost. Tasks cost at least the `scale` of the tariff.
-/

set_option autoImplicit false

namespace Deferral

open Outcomes

/-- What prices depend on. -/
structure Tariff where
  /-- The limit of calls. -/
  maxCallDepth : Nat
  /-- No code that is run is larger. -/
  code : Nat
  /-- What a task is worth. -/
  scale : Nat

namespace Tariff

/-- The price of a unit of code where this many calls are still possible. -/
def price (T : Tariff) : Nat → Nat
  | 0 => 16 * T.scale
  | room + 1 => 16 * T.scale + T.code * T.price room

/-- The price of the body of a call. -/
def bodyPrice (T : Tariff) : Nat → Nat
  | 0 => 0
  | room + 1 => T.code * T.price room

/-- The price of a unit of code at a depth of calls. -/
def rate (T : Tariff) (depth : Nat) : Nat := T.price (T.maxCallDepth - depth)

/-- What a call costs at a depth of calls. -/
def callCost (T : Tariff) (depth : Nat) : Nat := T.bodyPrice (T.maxCallDepth - depth)

/-- What a task costs that is submitted at a depth of calls. -/
def taskCost (T : Tariff) (depth : Nat) : Nat := T.callCost depth + T.scale + 3

theorem rate_eq (T : Tariff) (depth : Nat) : T.rate depth = 16 * T.scale + T.callCost depth := by
  rw [rate, callCost]
  cases T.maxCallDepth - depth <;> rfl

/-- Code of the size that is allowed can be run in a call. -/
theorem callCost_eq (T : Tariff) {depth : Nat} (h : depth < T.maxCallDepth) :
    T.callCost depth = T.code * T.rate (depth + 1) := by
  obtain ⟨room, hroom⟩ : ∃ room, T.maxCallDepth - depth = room + 1 :=
    Nat.exists_eq_succ_of_ne_zero (by omega)
  have hnext : T.maxCallDepth - (depth + 1) = room := by omega
  rw [callCost, rate, hroom, hnext, bodyPrice]

end Tariff

/-! ## Sizes -/

/-- The code in a piece of work. -/
noncomputable def Work.size : Work → Nat
  | .letIn bindings body => sizeOf bindings + sizeOf body
  | .block steps => sizeOf steps
  | .yield _ => 1
  | .select _ arms _ => sizeOf arms

/-- The code that is left when the pattern of an arm has been matched. -/
noncomputable def Trial.size (t : Trial) : Nat := sizeOf t.arm.alternatives + sizeOf t.later

/-- The code in a frame. Keys that have been evaluated do not count. -/
noncomputable def Frame.size : Frame → Nat
  | .branch onTrue onFalse => sizeOf onTrue + sizeOf onFalse
  | .connectiveLeft _ right => sizeOf right + 1
  | .andThen next => next.size
  | .bindKeys _ pattern next => pattern.guardSize + pattern.looks + next.size
  | .bindRetry _ pattern _ next => pattern.guardSize + next.size
  | .bindGuard _ guards next => Pattern.toll guards + next.size
  | .armKeys trial => trial.arm.pattern.guardSize + trial.arm.pattern.looks + trial.size
  | .armRetry trial _ => trial.arm.pattern.guardSize + trial.size
  | .armGuard trial _ guards => Pattern.toll guards + trial.size
  | .alternative trial _ body others => sizeOf body + sizeOf others + sizeOf trial.later
  | .connectiveRight _ | .call .. | .spawn | .functionRef _ | .raise _ => 0

/-- The code that a handler runs. -/
noncomputable def Handler.size : Handler → Nat
  | .resume frame _ => frame.size
  | .recover arms _ => sizeOf arms
  | _ => 0

noncomputable def Continuation.size : Continuation Handler → Nat
  | .derive _ handler | .notify handler => handler.size
  | .adopt _ | .gather .. => 0

theorem Expr.sizeOf_pos (e : Expr) : 0 < sizeOf e := by
  cases e <;> simp

theorem Work.size_pos (w : Work) : 0 < w.size := by
  cases w with
  | letIn bindings body => cases bindings <;> simp [size]
  | block steps => cases steps <;> simp [size]
  | yield v => exact Nat.one_pos
  | select value arms unmatched => cases arms <;> simp [size]

/-! ## Costs -/

section Costs

variable (T : Tariff) (σ : Outcomes)

/-- What a frame costs besides the code in it. -/
noncomputable def Frame.extra (env : Environment) : Frame → Nat
  | .bindRetry value pattern keys _ => 3 * pattern.patience env.getUser? value keys σ
  | .armRetry trial keys => 3 * trial.arm.pattern.patience env.getUser? trial.value keys σ
  | .call args _ => T.callCost env.callDepth + args.length + 2
  | .spawn => T.taskCost env.callDepth
  | _ => 0

/-- What it costs to resume a frame in an environment. -/
noncomputable def Frame.cost (env : Environment) (frame : Frame) : Nat :=
  frame.size * T.rate env.callDepth + frame.extra T σ env + 1

noncomputable def Handler.cost : Handler → Nat
  | .resume frame env => frame.cost T σ env
  | .recover arms env => sizeOf arms * T.rate env.callDepth
  | .apply _ env | .applyEither _ env => T.callCost env.callDepth + 6
  | .compute _ | .report _ => 0

/-- What it costs to deliver an outcome. -/
noncomputable def Continuation.cost : Continuation Handler → Nat
  | .adopt _ | .gather .. => 1
  | .derive _ handler => handler.cost T σ + 2
  | .notify handler => handler.cost T σ + 1

/-- What a continuation can cost by the time when the promise is settled. -/
noncomputable def owed (p : PromiseId) (k : Continuation Handler) : Nat :=
  sInf {c | ∀ σ', Later σ σ' → (σ' p).isSome → k.cost T σ' ≤ c}

end Costs

variable {T : Tariff} {σ σ' : Outcomes} {p : PromiseId} {k : Continuation Handler}

theorem Continuation.cost_pos : 0 < k.cost T σ := by
  cases k <;> exact Nat.succ_pos _

/-- However little is known, a frame does not cost more than its pattern allows. -/
theorem Frame.exists_cost_le (T : Tariff) (env : Environment) (frame : Frame) :
    ∃ c, ∀ σ, frame.cost T σ env ≤ c := by
  have hextra : ∃ c, ∀ σ, frame.extra T σ env ≤ c := by
    cases frame with
    | bindRetry value pattern keys next =>
      exact ⟨3 * pattern.looks, fun σ => Nat.mul_le_mul_left 3 Pattern.patience_le_looks⟩
    | armRetry trial keys =>
      exact ⟨3 * trial.arm.pattern.looks, fun σ => Nat.mul_le_mul_left 3 Pattern.patience_le_looks⟩
    | call args location => exact ⟨T.callCost env.callDepth + args.length + 2, fun _ => Nat.le_refl _⟩
    | spawn => exact ⟨T.taskCost env.callDepth, fun _ => Nat.le_refl _⟩
    | _ => exact ⟨0, fun _ => Nat.le_refl _⟩
  obtain ⟨c, hc⟩ := hextra
  exact ⟨frame.size * T.rate env.callDepth + c + 1, fun σ =>
    Nat.add_le_add_right (Nat.add_le_add_left (hc σ) _) 1⟩

theorem Handler.exists_cost_le (T : Tariff) (h : Handler) : ∃ c, ∀ σ, h.cost T σ ≤ c := by
  cases h with
  | resume frame env => exact frame.exists_cost_le T env
  | recover arms env => exact ⟨sizeOf arms * T.rate env.callDepth, fun _ => Nat.le_refl _⟩
  | apply function env => exact ⟨T.callCost env.callDepth + 6, fun _ => Nat.le_refl _⟩
  | applyEither function env => exact ⟨T.callCost env.callDepth + 6, fun _ => Nat.le_refl _⟩
  | compute operation => exact ⟨0, fun _ => Nat.le_refl _⟩
  | report label => exact ⟨0, fun _ => Nat.le_refl _⟩

theorem Continuation.exists_cost_le (T : Tariff) (k : Continuation Handler) :
    ∃ c, ∀ σ, k.cost T σ ≤ c := by
  cases k with
  | adopt t => exact ⟨1, fun _ => Nat.le_refl _⟩
  | gather id i => exact ⟨1, fun _ => Nat.le_refl _⟩
  | derive t h =>
    obtain ⟨c, hc⟩ := h.exists_cost_le T
    exact ⟨c + 2, fun σ => Nat.add_le_add_right (hc σ) 2⟩
  | notify h =>
    obtain ⟨c, hc⟩ := h.exists_cost_le T
    exact ⟨c + 1, fun σ => Nat.add_le_add_right (hc σ) 1⟩

/-- What is owed is enough, when the promise is settled. -/
theorem cost_le_owed (hσ : Later σ σ') (hp : (σ' p).isSome) : k.cost T σ' ≤ owed T σ p k := by
  obtain ⟨c, hc⟩ := k.exists_cost_le T
  exact Nat.sInf_mem (s := {c | ∀ σ', Later σ σ' → (σ' p).isSome → k.cost T σ' ≤ c})
    ⟨c, fun σ' _ _ => hc σ'⟩ σ' hσ hp

theorem owed_le {c : Nat} (h : ∀ σ', Later σ σ' → (σ' p).isSome → k.cost T σ' ≤ c) :
    owed T σ p k ≤ c :=
  Nat.sInf_le h

/-- Less and less is owed, the more is known. -/
theorem owed_later (hσ : Later σ σ') : owed T σ' p k ≤ owed T σ p k :=
  owed_le fun _ hσ' hp => cost_le_owed (hσ.trans hσ') hp

/-! ## The potential of a machine -/

/-- What is owed to continuations. -/
noncomputable def debt (T : Tariff) (σ : Outcomes) (ks : Multiset (PromiseId × Continuation Handler)) :
    Nat :=
  (ks.map fun e => owed T σ e.1 e.2).sum

theorem debt_cons (ks : Multiset (PromiseId × Continuation Handler)) :
    debt T σ ((p, k) ::ₘ ks) = owed T σ p k + debt T σ ks := by
  rw [debt, Multiset.map_cons, Multiset.sum_cons, debt]

theorem debt_add (a b : Multiset (PromiseId × Continuation Handler)) :
    debt T σ (a + b) = debt T σ a + debt T σ b := by
  rw [debt, Multiset.map_add, Multiset.sum_add, debt, debt]

theorem debt_le {a b : Multiset (PromiseId × Continuation Handler)} (h : a ≤ b) :
    debt T σ a ≤ debt T σ b := by
  obtain ⟨rest, rfl⟩ := Multiset.le_iff_exists_add.1 h
  rw [debt_add]
  exact Nat.le_add_right _ _

theorem debt_later (hσ : Later σ σ') (ks : Multiset (PromiseId × Continuation Handler)) :
    debt T σ' ks ≤ debt T σ ks :=
  Multiset.sum_map_le_sum_map _ _ fun _ _ => owed_later hσ

namespace Machine

/-- What the queued tasks cost. -/
def tasksCost (T : Tariff) (queue : List Task) : Nat :=
  (queue.map fun t => T.taskCost t.caller.callDepth).sum

/-- What all that waits in a machine costs. -/
noncomputable def potential (T : Tariff) (m : Machine) : Nat :=
  debt T m.store.outcome? m.store.waits + tasksCost T m.rest.queue

/-- No promise holds a promise, and no code is larger than the tariff says. -/
structure Sane (T : Tariff) (m : Machine) : Prop where
  flat : m.store.Flat
  functions : ∀ (id : FunctionId) (f : Function) (params : List String) (body : Expr),
    m.function? id = some f → f.body = .code params body → sizeOf body ≤ T.code
  suspended : ∀ e ∈ m.store.waits, e.2.size ≤ T.code

end Machine

end Deferral
