import Deferral.Proofs.Eval.Run
import Deferral.Proofs.Promise.Fence
import Deferral.Proofs.Renaming.Texts

/-!
# One machine inside another

A machine is embedded in another (`Machine.Embeds`) if the other one has all that it has under other
names, and in the same state. The other one may have more, but nothing of that has a hand in what it
shares. What is made next on both sides is renamed into each other, so that the two stay so.

Some promises of the other machine are shadows of promises that it shares: they are not shared
themselves, nothing waits for them, and they may adopt the promise that they are shadows of. When that
is settled, its shadows are settled too, and that is all that comes of it.
-/

set_option autoImplicit false

namespace Deferral

/-- The promises that are shadows, each with the promise that it is a shadow of. -/
abbrev Shadows := PromiseId → Option PromiseId

variable {r : Renaming} {X : Shadows}

/-! ## Promises -/

/-- What waits for `p` on the other side is what waits for it on this one, and adoptions by shadows. -/
inductive Tracks (r : Renaming) (X : Shadows) (p : PromiseId) :
    List (Continuation Handler) → List (Continuation Handler) → Prop
  | nil : Tracks r X p [] []
  | cons (k : Continuation Handler) {ks ks' : List (Continuation Handler)}
    (h : Tracks r X p ks ks') : Tracks r X p (k :: ks) (k.rename r :: ks')
  | adopt {x : PromiseId} (hx : X x = some p) {ks ks' : List (Continuation Handler)}
    (h : Tracks r X p ks ks') : Tracks r X p ks (.adopt x :: ks')

/-- The promise stands on the other side as it does on this one. -/
inductive PromiseState.Mirrors (r : Renaming) (X : Shadows) (p : PromiseId) :
    PromiseState Handler → PromiseState Handler → Prop
  | settled (o : Outcome) : Mirrors r X p (.ofOutcome o) (.ofOutcome (o.rename r))
  | pending {ks ks' : List (Continuation Handler)} (h : Tracks r X p ks ks') :
    Mirrors r X p (.pending ks) (.pending ks')

namespace Tracks

variable {p : PromiseId} {ks ks' : List (Continuation Handler)}

theorem snoc (h : Tracks r X p ks ks') (k : Continuation Handler) :
    Tracks r X p (ks ++ [k]) (ks' ++ [k.rename r]) := by
  induction h with
  | nil => exact .cons k .nil
  | cons k' _ ih => exact .cons k' ih
  | adopt hx _ ih => exact .adopt hx ih

theorem snoc_adopt (h : Tracks r X p ks ks') {x : PromiseId} (hx : X x = some p) :
    Tracks r X p ks (ks' ++ [.adopt x]) := by
  induction h with
  | nil => exact .adopt hx .nil
  | cons k' _ ih => exact .cons k' ih
  | adopt hx' _ ih => exact .adopt hx' ih

end Tracks

theorem PromiseState.Mirrors.elim {p : PromiseId} {st st' : PromiseState Handler}
    (h : st.Mirrors r X p st') :
    (∃ o, st = .ofOutcome o ∧ st' = .ofOutcome (o.rename r)) ∨
      ∃ ks ks', st = .pending ks ∧ st' = .pending ks' ∧ Tracks r X p ks ks' := by
  cases h with
  | settled o => exact .inl ⟨o, rfl, rfl⟩
  | pending h => exact .inr ⟨_, _, rfl, rfl, h⟩

namespace Store

variable {s : Store Handler} {p : PromiseId} {o : Outcome}

theorem register_pending {ks : List (Continuation Handler)} (h : s.state p = .pending ks)
    (k : Continuation Handler) :
    s.register p k = (none, s.setState p (.pending (ks ++ [k]))) := by
  simp only [register, h]

theorem register_settled (h : s.state p = .ofOutcome o) (k : Continuation Handler) :
    s.register p k = (some o, s) := by
  cases o <;> simp only [register, h, PromiseState.ofOutcome] <;> rfl

theorem settle_settled (h : s.state p = .ofOutcome o) (o' : Outcome) : s.settle p o' = ([], s) := by
  cases o <;> simp only [settle, h, PromiseState.ofOutcome]

end Store

theorem GatherId.index_eq {a b : GatherId} : a.index = b.index ↔ a = b := by
  obtain ⟨i⟩ := a
  obtain ⟨j⟩ := b
  simp

theorem FunctionId.index_eq {a b : FunctionId} : a.index = b.index ↔ a = b := by
  obtain ⟨i⟩ := a
  obtain ⟨j⟩ := b
  simp

theorem Store.size_gathers_record (id : GatherId) (place : Nat) (o : Outcome) (s : Store Handler) :
    (s.record id place o).2.gathers.size = s.gathers.size := by
  rcases record_cases id place o s with ⟨-, hs⟩ | ⟨g, -, hs⟩
  · rw [hs]
  · rw [hs, Array.size_setIfInBounds]

/-- The second store has what the first one has, renamed and in the same state. -/
structure Store.Embeds (r : Renaming) (X : Shadows) (s s' : Store Handler) : Prop where
  state : ∀ p, (s.state p).Mirrors r X p (s'.state (r.promise p))
  gathers : ∀ id, s'.gathers[(r.gather id).index]? = s.gathers[id.index]?.map (Gather.rename r)
  nextPromise : ∀ k, r.promise ⟨s.promises.size + k⟩ = ⟨s'.promises.size + k⟩
  nextGather : ∀ k, r.gather ⟨s.gathers.size + k⟩ = ⟨s'.gathers.size + k⟩
  unshared : ∀ {x p}, X x = some p → ∀ q, r.promise q ≠ x
  /-- A shadow is settled only as its promise is. -/
  shadow : ∀ {x p}, X x = some p →
    s'.state x = .pending [] ∨ ∃ o, s.outcome? p = some o ∧ s'.state x = .ofOutcome (o.rename r)

namespace Store.Embeds

variable {s s' : Store Handler} (h : s.Embeds r X s')
include h

theorem has {p : PromiseId} : s'.Has (r.promise p) ↔ s.Has p := by
  rw [← not_iff_not]
  simp only [Has, Nat.not_lt]
  constructor
  · intro hp
    have hnext : r.promise p =
        r.promise ⟨s.promises.size + ((r.promise p).index - s'.promises.size)⟩ := by
      rw [h.nextPromise, Nat.add_sub_cancel' hp]
    rw [r.promise_injective hnext]
    exact Nat.le_add_right _ _
  · intro hp
    have hnext : p = ⟨s.promises.size + (p.index - s.promises.size)⟩ := by
      rw [Nat.add_sub_cancel' hp]
    rw [hnext, h.nextPromise]
    exact Nat.le_add_right _ _

theorem outcome? (p : PromiseId) :
    s'.outcome? (r.promise p) = (s.outcome? p).map (Outcome.rename r) := by
  rcases (h.state p).elim with ⟨o, hs, hs'⟩ | ⟨ks, ks', hs, hs', -⟩
  · rw [outcome?_of_state hs, outcome?_of_state hs', Option.map_some]
  · rw [Store.outcome?, Store.outcome?, hs, hs']
    rfl

theorem fresh_fst : s'.fresh.1 = r.promise s.fresh.1 := (h.nextPromise 0).symm

theorem fresh : s.fresh.2.Embeds r X s'.fresh.2 where
  state p := by
    rw [state_fresh, state_fresh]
    exact h.state p
  gathers := h.gathers
  nextPromise k := by
    have hnext := h.nextPromise (k + 1)
    simp only [Store.fresh, Array.size_push, Nat.add_assoc, Nat.add_comm 1 k]
    exact hnext
  nextGather := h.nextGather
  unshared := h.unshared
  shadow hx := by
    simp only [Store.outcome?, state_fresh]
    exact h.shadow hx

/-- A promise that is pending gets another state on both sides. -/
theorem setState {p : PromiseId} (hp : s.outcome? p = none) {st st' : PromiseState Handler}
    (hst : st.Mirrors r X p st') :
    (s.setState p st).Embeds r X (s'.setState (r.promise p) st') where
  state q := by
    by_cases hq : q = p
    · subst hq
      by_cases hhas : s.Has q
      · rw [state_setState_self hhas, state_setState_self (h.has.2 hhas)]
        exact hst
      · rw [state_of_not_has (mt has_setState.1 hhas),
          state_of_not_has (mt (has_setState.trans h.has).1 hhas)]
        exact .pending .nil
    · rw [state_setState_ne hq, state_setState_ne (mt r.promise_inj.1 hq)]
      exact h.state q
  gathers := h.gathers
  nextPromise k := by
    rw [size_setState, size_setState]
    exact h.nextPromise k
  nextGather := h.nextGather
  unshared := h.unshared
  shadow {x q} hx := by
    rw [state_setState_ne (h.unshared hx p).symm]
    refine (h.shadow hx).imp id fun ⟨o, ho, hs⟩ => ⟨o, ?_, hs⟩
    have hq : q ≠ p := by
      rintro rfl
      cases hp.symm.trans ho
    rwa [outcome?_setState_ne hq]

/-- A shadow is settled as its promise is. -/
theorem settleShadow {x p : PromiseId} (hx : X x = some p) {o : Outcome} (ho : s.outcome? p = some o) :
    s.Embeds r X (s'.setState x (.ofOutcome (o.rename r))) where
  state q := by
    rw [state_setState_ne (h.unshared hx q)]
    exact h.state q
  gathers := h.gathers
  nextPromise k := by
    rw [size_setState]
    exact h.nextPromise k
  nextGather := h.nextGather
  unshared := h.unshared
  shadow {y q} hy := by
    by_cases hyx : y = x
    · subst hyx
      obtain rfl := Option.some.inj (hx.symm.trans hy)
      by_cases hhas : s'.Has y
      · exact .inr ⟨o, ho, state_setState_self hhas⟩
      · exact .inl (state_of_not_has (mt has_setState.1 hhas))
    · rw [state_setState_ne hyx]
      exact h.shadow hy

theorem addGather_fst (g : Gather) : (s'.addGather (g.rename r)).1 = r.gather (s.addGather g).1 :=
  (h.nextGather 0).symm

theorem addGather (g : Gather) : (s.addGather g).2.Embeds r X (s'.addGather (g.rename r)).2 where
  state := h.state
  gathers id := by
    have hnew : (r.gather id).index = s'.gathers.size ↔ id.index = s.gathers.size := by
      rw [GatherId.index_eq, GatherId.index_eq, show s'.gathers.size = s'.gathers.size + 0 from rfl,
        ← h.nextGather, r.gather_injective.eq_iff]
      rfl
    simp only [Store.addGather, Array.getElem?_push, hnew]
    split
    · rfl
    · exact h.gathers id
  nextPromise := h.nextPromise
  nextGather k := by
    have hnext := h.nextGather (k + 1)
    simp only [Store.addGather, Array.size_push, Nat.add_assoc, Nat.add_comm 1 k]
    exact hnext
  unshared := h.unshared
  shadow := h.shadow

theorem record_fst (id : GatherId) (place : Nat) (o : Outcome) :
    (s'.record (r.gather id) place (o.rename r)).1 =
      (s.record id place o).1.map fun c => (r.promise c.1, c.2.rename r) := by
  have hid := h.gathers id
  unfold Store.record
  cases hg : s.gathers[id.index]? with
  | none =>
    rw [hg] at hid
    simp only [hid, Option.map_none]
  | some g =>
    rw [hg] at hid
    simp only [hid, Option.map_some, Gather.record_rename, Option.map_map]
    rfl

theorem record (id : GatherId) (place : Nat) (o : Outcome) :
    (s.record id place o).2.Embeds r X (s'.record (r.gather id) place (o.rename r)).2 where
  state p := by
    rw [state_record, state_record]
    exact h.state p
  gathers id' := by
    have hid := h.gathers id
    have hid' := h.gathers id'
    rcases record_cases id place o s with ⟨hnone, hs⟩ | ⟨g, hg, hs⟩
    · rw [hnone] at hid
      rw [hs, Store.record, hid]
      exact hid'
    · rw [hg] at hid
      rw [hs, Store.record, hid]
      simp only [Option.map_some, Gather.record_rename, Array.getElem?_setIfInBounds]
      by_cases he : id = id'
      · subst he
        have hlt : id.index < s.gathers.size := (Array.getElem?_eq_some_iff.1 hg).1
        have hlt' : (r.gather id).index < s'.gathers.size := (Array.getElem?_eq_some_iff.1 hid).1
        rw [if_pos rfl, if_pos rfl, if_pos hlt, if_pos hlt']
        rfl
      · have hne : id.index ≠ id'.index := fun hi => he (GatherId.index_eq.1 hi)
        have hne' : (r.gather id).index ≠ (r.gather id').index := fun hi =>
          he (r.gather_injective (GatherId.index_eq.1 hi))
        rw [if_neg hne, if_neg hne']
        exact hid'
  nextPromise k := by
    rw [size_record, size_record]
    exact h.nextPromise k
  nextGather k := by
    rw [size_gathers_record, size_gathers_record]
    exact h.nextGather k
  unshared := h.unshared
  shadow hx := by
    simp only [Store.outcome?, state_record]
    exact h.shadow hx

end Store.Embeds

/-! ## Machines -/

/-- The second machine has what the first one has, renamed and in the same state, and its code is about
to see the same. -/
structure Machine.Embeds (r : Renaming) (X : Shadows) (m m' : Machine) : Prop where
  store : m.store.Embeds r X m'.store
  function? : ∀ id, m'.function? (r.function id) = (m.function? id).map (Function.rename r)
  nextFunction : ∀ k, r.function ⟨m.rest.functions.size + k⟩ = ⟨m'.rest.functions.size + k⟩
  env : m'.rest.env = m.rest.env.rename r
  modules : m'.rest.modules = m.rest.modules.rename r
  held : ∀ module : Module, m'.rest.held (module.rename r) = m.rest.held module
  interrupted : m'.rest.interrupted = m.rest.interrupted
  queue : m'.rest.queue = m.rest.queue.map (Task.rename r)

namespace Machine.Embeds

variable {m m' : Machine} (h : m.Embeds r X m')
include h

/-! ### What is seen -/

theorem sight : m.sight.Renames r m'.sight where
  outcome? := h.store.outcome?
  bound? name := by
    simp only [Machine.sight, h.env, Environment.getUser?_rename]

theorem present (module : Module) : m'.present (module.rename r) = m.present module := by
  have hsame : ∀ found : Option Module,
      (found.map (Module.rename r) == some (module.rename r)) = (found == some module) := by
    intro found
    cases found with
    | none => rfl
    | some other =>
      rw [Bool.eq_iff_iff, beq_iff_eq, beq_iff_eq, Option.map_some, Option.some_inj, Option.some_inj,
        (Module.rename_injective r).eq_iff]
  rw [Machine.present, Machine.present, h.held, h.modules, Module.name_rename, Registry.get?_rename,
    hsame]

theorem current? (id : FunctionId) :
    m'.current? (r.function id) = (m.current? id).map (Function.rename r) := by
  rw [Machine.current?, Machine.current?, h.function?, Option.map_map, Option.map_map]
  exact congrArg (Option.map · _) (funext fun f => f.standing_rename r h.present)

theorem directory : m.directory.Renames r m'.directory :=
  ⟨h.current?, h.store.outcome?, m.directory_counted, m'.directory_counted⟩

theorem labels : m.directory.labels.Renames r m'.directory.labels := h.directory.labels

theorem quoted? (v : Value) : m'.directory.quoted? (v.rename r) = m.directory.quoted? v :=
  h.directory.quoted? v

theorem plain (v : Value) : (v.rename r).plain m'.directory.labels = v.plain m.directory.labels :=
  Value.render_rename h.labels .plain v

/-- A handler sees the same triple on both sides. -/
theorem triple? (fallback : StackTrace) (e : Error) :
    m'.directory.triple? fallback (e.rename r) =
      (m.directory.triple? fallback e).map (Value.rename r) := by
  rw [h.directory.triple?]
  cases htriple : m.directory.triple? fallback e with
  | none => rfl
  | some v => rw [Option.map_some, Directory.rename_of_triple? htriple]

/-! ### Changes on both sides -/

theorem withEnv (env : Environment) : (m.withEnv env).Embeds r X (m'.withEnv (env.rename r)) :=
  { h with env := rfl }

theorem withStore {s s' : Store Handler} (hs : s.Embeds r X s') :
    (m.withStore s).Embeds r X (m'.withStore s') :=
  { h with store := hs }

theorem withQueue (queue : List Task) :
    (m.withQueue queue).Embeds r X (m'.withQueue (queue.map (Task.rename r))) :=
  { h with queue := rfl }

theorem fresh : (m.withStore m.store.fresh.2).Embeds r X (m'.withStore m'.store.fresh.2) :=
  h.withStore h.store.fresh

theorem withFunction (f : Function) : (m.withFunction f).Embeds r X (m'.withFunction (f.rename r)) :=
  { h with
    function? := fun id => by
      have hnew : (r.function id).index = m'.rest.functions.size ↔
          id.index = m.rest.functions.size := by
        rw [FunctionId.index_eq, FunctionId.index_eq,
          show m'.rest.functions.size = m'.rest.functions.size + 0 from rfl, ← h.nextFunction,
          r.function_injective.eq_iff]
        rfl
      have hid := h.function? id
      simp only [Machine.function?, Machine.withFunction, Array.getElem?_push, hnew] at hid ⊢
      split
      · rfl
      · exact hid
    nextFunction := fun k => by
      have hnext := h.nextFunction (k + 1)
      simp only [Machine.withFunction, Array.size_push, Nat.add_assoc, Nat.add_comm 1 k]
      exact hnext }

theorem withModule (module : Module) :
    Machine.Embeds r X
      { m with rest := { m.rest with modules := m.rest.modules.register module } }
      { m' with rest := { m'.rest with modules := m'.rest.modules.register (module.rename r) } } :=
  { h with
    modules := by
      simp only [h.modules]
      exact Registry.register_rename .. }

theorem withInterrupted (flag : Bool) :
    Machine.Embeds r X { m with rest := { m.rest with interrupted := flag } }
      { m' with rest := { m'.rest with interrupted := flag } } :=
  { h with interrupted := rfl }

/-- What is logged makes no difference. -/
theorem withLogs (log log' : List LogEntry) :
    Machine.Embeds r X { m with rest := { m.rest with log } }
      { m' with rest := { m'.rest with log := log' } } :=
  ⟨h.store, h.function?, h.nextFunction, h.env, h.modules, h.held, h.interrupted, h.queue⟩

end Machine.Embeds

end Deferral
