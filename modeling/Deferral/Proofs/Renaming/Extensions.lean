import Deferral.Proofs.Renaming.Engines

/-!
# A machine and more of it

A machine `Extends` another one if it has all that the other one has, unchanged, and possibly more. If
nothing in the smaller machine is about things that it does not have (`Renaming.Fixes`), then it is
embedded in the larger one by a renaming that keeps what there is and moves what is made from then on
out of the way (`Machine.Extends.embeds`).
-/

set_option autoImplicit false

namespace Deferral

/-! ## Moving identities out of the way -/

/-- How many promises, functions and gathers there are. -/
structure Counts where
  promises : Nat
  functions : Nat
  gathers : Nat

/-- The first numbers stay, the others are moved up. -/
def moveUp (first more i : Nat) : Nat := if i < first then i else i + more

theorem moveUp_injective (first more : Nat) : Function.Injective (moveUp first more) := by
  intro i j h
  unfold moveUp at h
  split at h <;> split at h <;> omega

theorem moveUp_of_lt {first i : Nat} (h : i < first) (more : Nat) : moveUp first more i = i := if_pos h

theorem moveUp_add (first more k : Nat) : moveUp first more (first + k) = first + more + k := by
  unfold moveUp
  rw [if_neg (by omega)]
  omega

namespace Renaming

/-- Keeps the first of each kind, and moves the others up. -/
def shift (first more : Counts) : Renaming where
  promise p := ⟨moveUp first.promises more.promises p.index⟩
  function id := ⟨moveUp first.functions more.functions id.index⟩
  gather id := ⟨moveUp first.gathers more.gathers id.index⟩
  promise_injective := by
    rintro ⟨i⟩ ⟨j⟩ h
    exact congrArg PromiseId.mk (moveUp_injective _ _ (PromiseId.mk.inj h))
  function_injective := by
    rintro ⟨i⟩ ⟨j⟩ h
    exact congrArg FunctionId.mk (moveUp_injective _ _ (FunctionId.mk.inj h))
  gather_injective := by
    rintro ⟨i⟩ ⟨j⟩ h
    exact congrArg GatherId.mk (moveUp_injective _ _ (GatherId.mk.inj h))

/-- What a machine has keeps its identity. -/
structure Keeps (r : Renaming) (m : Machine) : Prop where
  promise : ∀ p, m.store.Has p → r.promise p = p
  function : ∀ id, id.index < m.rest.functions.size → r.function id = id
  gather : ∀ id, id.index < m.store.gathers.size → r.gather id = id

/-- Nothing in the machine changes. -/
structure Fixes (r : Renaming) (m : Machine) : Prop where
  settled : ∀ p o, m.store.outcome? p = some o → Outcome.rename r o = o
  waiting : ∀ p ks k, m.store.state p = .pending ks → k ∈ ks → k.rename r = k
  gathers : ∀ (i : Nat) g, m.store.gathers[i]? = some g → g.rename r = g
  functions : ∀ id f, m.function? id = some f → f.rename r = f
  env : m.rest.env.rename r = m.rest.env
  modules : m.rest.modules.rename r = m.rest.modules
  held : ∀ module : Module, m.rest.held (module.rename r) = m.rest.held module
  queue : m.rest.queue.map (Task.rename r) = m.rest.queue

end Renaming

namespace Machine

def counts (m : Machine) : Counts :=
  ⟨m.store.promises.size, m.rest.functions.size, m.store.gathers.size⟩

/-- Keeps what the first machine has, and moves the rest past all that the second one has. -/
def past (m m' : Machine) : Renaming :=
  .shift m.counts ⟨m'.store.promises.size - m.store.promises.size,
    m'.rest.functions.size - m.rest.functions.size, m'.store.gathers.size - m.store.gathers.size⟩

theorem past_keeps (m m' : Machine) : (m.past m').Keeps m where
  promise _ hp := congrArg PromiseId.mk (moveUp_of_lt hp _)
  function _ hid := congrArg FunctionId.mk (moveUp_of_lt hid _)
  gather _ hid := congrArg GatherId.mk (moveUp_of_lt hid _)

/-- The second machine has what the first one has, unchanged, and may have more. -/
structure Extends (m m' : Machine) : Prop where
  state : ∀ p, m.store.Has p → m'.store.state p = m.store.state p
  promises : m.store.promises.size ≤ m'.store.promises.size
  gather : ∀ i, i < m.store.gathers.size → m'.store.gathers[i]? = m.store.gathers[i]?
  gathers : m.store.gathers.size ≤ m'.store.gathers.size
  function : ∀ id, id.index < m.rest.functions.size → m'.function? id = m.function? id
  functions : m.rest.functions.size ≤ m'.rest.functions.size
  env : m'.rest.env = m.rest.env
  modules : m'.rest.modules = m.rest.modules
  held : m'.rest.held = m.rest.held
  interrupted : m'.rest.interrupted = m.rest.interrupted
  queue : m'.rest.queue = m.rest.queue

theorem Extends.refl (m : Machine) : m.Extends m where
  state _ _ := rfl
  promises := Nat.le_refl _
  gather _ _ := rfl
  gathers := Nat.le_refl _
  function _ _ := rfl
  functions := Nat.le_refl _
  env := rfl
  modules := rfl
  held := rfl
  interrupted := rfl
  queue := rfl

end Machine

section

variable {r : Renaming} {X : Shadows} {m m' : Machine}

theorem Tracks.of_fixed {p : PromiseId} {ks : List (Continuation Handler)}
    (h : ∀ k ∈ ks, k.rename r = k) : Tracks r X p ks ks := by
  induction ks with
  | nil => exact .nil
  | cons k ks ih =>
    have hks := Tracks.cons (r := r) (X := X) (p := p) k (ih fun l hl => h l (.tail _ hl))
    rwa [h k (.head _)] at hks

namespace Machine.Extends

/-- What is made next is moved past what there is. -/
theorem next_promise (h : m.Extends m') (k : Nat) :
    (m.past m').promise ⟨m.store.promises.size + k⟩ = ⟨m'.store.promises.size + k⟩ := by
  refine congrArg PromiseId.mk ((moveUp_add _ _ k).trans ?_)
  have := h.promises
  simp only [Machine.counts]
  omega

theorem next_gather (h : m.Extends m') (k : Nat) :
    (m.past m').gather ⟨m.store.gathers.size + k⟩ = ⟨m'.store.gathers.size + k⟩ := by
  refine congrArg GatherId.mk ((moveUp_add _ _ k).trans ?_)
  have := h.gathers
  simp only [Machine.counts]
  omega

theorem next_function (h : m.Extends m') (k : Nat) :
    (m.past m').function ⟨m.rest.functions.size + k⟩ = ⟨m'.rest.functions.size + k⟩ := by
  refine congrArg FunctionId.mk ((moveUp_add _ _ k).trans ?_)
  have := h.functions
  simp only [Machine.counts]
  omega

/-- A machine is embedded in one that extends it. Promises that the larger one has beside may be
shadows, as long as nothing waits for them. -/
theorem embeds (h : m.Extends m') (hfixes : (m.past m').Fixes m)
    (hX : ∀ x p, X x = some p → ¬m.store.Has x ∧ m'.store.Has x ∧ m'.store.state x = .pending []) :
    m.Embeds (m.past m') X m' where
  store :=
    { state := fun p => by
        by_cases hp : m.store.Has p
        · rw [(m.past_keeps m').promise p hp, h.state p hp]
          rcases (m.store.state p).pending_or_ofOutcome with ⟨ks, hks⟩ | ⟨o, ho⟩
          · rw [hks]
            exact .pending (.of_fixed fun k hk => hfixes.waiting p ks k hks hk)
          · have hsettled : PromiseState.Mirrors (m.past m') X p (.ofOutcome o) _ := .settled o
            rw [hfixes.settled p o (Store.outcome?_of_state ho)] at hsettled
            rwa [ho]
        · have hnext : p = ⟨m.store.promises.size + (p.index - m.store.promises.size)⟩ := by
            rw [Nat.add_sub_cancel' (Nat.not_lt.1 hp)]
          have hp' : ¬m'.store.Has ((m.past m').promise p) := by
            rw [hnext, h.next_promise]
            exact Nat.not_lt.2 (Nat.le_add_right _ _)
          rw [Store.state_of_not_has hp, Store.state_of_not_has hp']
          exact .pending .nil
      gathers := fun id => by
        by_cases hid : id.index < m.store.gathers.size
        · rw [(m.past_keeps m').gather id hid, h.gather id.index hid]
          cases hg : m.store.gathers[id.index]? with
          | none => rfl
          | some g => rw [Option.map_some, hfixes.gathers id.index g hg]
        · have hnext : id = ⟨m.store.gathers.size + (id.index - m.store.gathers.size)⟩ := by
            rw [Nat.add_sub_cancel' (Nat.not_lt.1 hid)]
          rw [Array.getElem?_eq_none (Nat.not_lt.1 hid), Array.getElem?_eq_none, Option.map_none]
          rw [hnext, h.next_gather]
          exact Nat.le_add_right _ _
      nextPromise := h.next_promise
      nextGather := h.next_gather
      unshared := fun {x p} hx q hq => by
        obtain ⟨hnew, hhas, -⟩ := hX x p hx
        by_cases hq' : m.store.Has q
        · rw [(m.past_keeps m').promise q hq'] at hq
          exact hnew (hq ▸ hq')
        · have hnext : q = ⟨m.store.promises.size + (q.index - m.store.promises.size)⟩ := by
            rw [Nat.add_sub_cancel' (Nat.not_lt.1 hq')]
          rw [hnext, h.next_promise] at hq
          rw [← hq] at hhas
          exact absurd hhas (Nat.not_lt.2 (Nat.le_add_right _ _))
      shadow := fun hx => .inl (hX _ _ hx).2.2 }
  function? id := by
    by_cases hid : id.index < m.rest.functions.size
    · rw [(m.past_keeps m').function id hid, h.function id hid]
      cases hf : m.function? id with
      | none => rfl
      | some f => rw [Option.map_some, hfixes.functions id f hf]
    · have hnext : id = ⟨m.rest.functions.size + (id.index - m.rest.functions.size)⟩ := by
        rw [Nat.add_sub_cancel' (Nat.not_lt.1 hid)]
      have hnone : m.function? id = none := Array.getElem?_eq_none (Nat.not_lt.1 hid)
      rw [hnone, hnext, h.next_function]
      exact Array.getElem?_eq_none (Nat.le_add_right _ _)
  nextFunction := h.next_function
  env := h.env.trans hfixes.env.symm
  modules := h.modules.trans hfixes.modules.symm
  held module := h.held ▸ hfixes.held module
  interrupted := h.interrupted
  queue := h.queue.trans hfixes.queue.symm

end Machine.Extends

end

end Deferral
