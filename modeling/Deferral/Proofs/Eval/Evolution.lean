import Mathlib.Logic.Relation
import Deferral.Proofs.Eval.Run
import Deferral.Proofs.Promise.Settlement

/-!
# How machines evolve

`Change` lists what evaluation can do to a machine, one small step at a time, and `Evolves` is any
number of such steps. That every run of the evaluator is one is shown elsewhere (`Conduct`); here is
what follows from it. Outcomes and functions stay, and a store in which no promise holds a promise
stays such a store.
-/

set_option autoImplicit false

namespace Deferral

/-- What can happen to a machine in one step. A promise is never settled with a promise. -/
inductive Change : Machine → Machine → Prop
  | environment (m : Machine) (env : Environment) : Change m (m.withEnv env)
  | made (m : Machine) : Change m (m.withStore m.store.fresh.2)
  | registered (m : Machine) (p : PromiseId) (k : Continuation Handler) :
      Change m (m.withStore (m.store.register p k).2)
  | settled (m : Machine) (p : PromiseId) {o : Outcome} (ho : Concrete o) :
      Change m (m.withStore (m.store.settle p o).2)
  | gathering (m : Machine) (g : Gather) : Change m (m.withStore (m.store.addGather g).2)
  | recorded (m : Machine) (id : GatherId) (place : Nat) (o : Outcome) :
      Change m (m.withStore (m.store.record id place o).2)
  | function (m : Machine) (f : Function) : Change m (m.withFunction f)
  | modules (m : Machine) (registry : Registry) :
      Change m { m with rest := { m.rest with modules := registry } }
  | interrupted (m : Machine) : Change m { m with rest := { m.rest with interrupted := true } }
  | queue (m : Machine) (tasks : List Task) : Change m (m.withQueue tasks)
  | log (m : Machine) (entries : List LogEntry) :
      Change m { m with rest := { m.rest with log := entries } }

/-- One machine comes from another by changes. -/
abbrev Evolves : Machine → Machine → Prop := Relation.ReflTransGen Change

namespace Change

variable {m m' : Machine}

theorem outcome? (h : Change m m') {p : PromiseId} {o : Outcome} (hp : m.store.outcome? p = some o) :
    m'.store.outcome? p = some o := by
  cases h with
  | made => rwa [Machine.withStore, Store.outcome?, Store.state_fresh]
  | registered q k => exact Store.outcome?_register k hp
  | settled q ho => exact Store.outcome?_settle _ hp
  | gathering g => exact hp
  | recorded id place o' => rwa [Machine.withStore, Store.outcome?, Store.state_record]
  | _ => exact hp

theorem flat (h : Change m m') (hm : m.store.Flat) : m'.store.Flat := by
  cases h with
  | made => exact hm.of_state_eq (Store.state_fresh _)
  | registered q k => exact hm.register q k
  | settled q ho => exact hm.settle q ho
  | gathering g => exact hm.of_state_eq (Store.state_addGather g _)
  | recorded id place o' => exact hm.of_state_eq (Store.state_record id place o' _)
  | _ => exact hm

theorem has (h : Change m m') {p : PromiseId} (hp : m.store.Has p) : m'.store.Has p := by
  cases h with
  | made => exact Store.has_fresh.2 (.inl hp)
  | registered q k => exact Store.has_register.2 hp
  | settled q ho => exact Store.has_settle.2 hp
  | recorded id place o' => exact Store.has_record.2 hp
  | _ => exact hp

end Change

namespace Evolves

variable {m m' : Machine}

/-- What a machine has settled stays so. -/
theorem outcome? (h : Evolves m m') {p : PromiseId} {o : Outcome}
    (hp : m.store.outcome? p = some o) : m'.store.outcome? p = some o := by
  induction h with
  | refl => exact hp
  | tail _ hc ih => exact hc.outcome? ih

/-- What has been made stays. -/
theorem has (h : Evolves m m') {p : PromiseId} (hp : m.store.Has p) : m'.store.Has p := by
  induction h with
  | refl => exact hp
  | tail _ hc ih => exact hc.has ih

/-- No promise comes to hold a promise. -/
theorem flat (h : Evolves m m') (hm : m.store.Flat) : m'.store.Flat := by
  induction h with
  | refl => exact hm
  | tail _ hc ih => exact hc.flat ih

end Evolves

end Deferral
