import Deferral.Proofs.Promise.Waiting
import Deferral.Proofs.Transparency.Plan

/-!
# The invariant of runs

`Good S G F m`: the machine `m` is on its way to what the plan `G` says. Each promise the run is about
holds its planned value, or is pending with continuations that are `Sound`; something is under way for
each pending promise; and a gather is missing exactly the operands that are under way. What is under
way waits for a pending promise, is in the queue, or is in *flight*: `F` lists the continuations that
have been taken from the store, or are about to be registered in it, by what is running now.

`Sound` says of a continuation that, given the value planned for the promise it waits for, it does what
the plan says of its target. The ranks rule out that promises wait for each other in a circle.
-/

set_option autoImplicit false

namespace Deferral

/-- Given the value `v` of a promise of rank `ρ`, the continuation does what the plan says. Promises
that are `due` may still have to be waited for. -/
inductive Sound (S : Setting) (G : Plan) (due : PromiseId → Bool) (v : Value) (ρ : Nat) :
    Continuation Handler → Prop where
  | adopt {t : PromiseId} (value : G.value t = some v) (rank : ρ < G.rank t) :
      Sound S G due v ρ (.adopt t)
  | resume {t : PromiseId} {frame frame' : Frame} {env : Environment} {bs : List Binding}
      {w : Value} {d c τ : Nat}
      (computes : Computes S.context S.functions d bs (.resume frame' v) w c)
      (value : G.value t = some w) (scope : ScopeStands S G τ env.bindings bs)
      (same : frame.Rel (Stands S G τ) frame')
      (depth : d = 0 ∨ env.callDepth + d ≤ S.context.maxCallDepth) (nested : d ≤ S.nesting)
      (before : ρ ≤ τ)
      (rank : τ + (c + 4 * frame.waits due env.bindings) < G.rank t)
      (weight : c + 4 * frame.waits due env.bindings + 3 ≤ G.weight t) :
      Sound S G due v ρ (.derive t (.resume frame env))
  | compute {t : PromiseId} {op : Strict} {vs : List Value} {w : Value} (tuple : v = .tuple vs)
      (gives : op.Gives S.context S.functions vs w) (value : G.value t = some w) (rank : ρ < G.rank t)
      (weight : 3 ≤ G.weight t) : Sound S G due v ρ (.derive t (.compute op))
  | gather {id : GatherId} {place : Nat} {r : PromiseId} {vs : List Value}
      (gather : G.gather id = some (r, vs)) (value : G.value r = some (.tuple vs))
      (operand : vs[place]? = some v) (rank : ρ < G.rank r) : Sound S G due v ρ (.gather id place)

theorem Sound.mono {S : Setting} {G G' : Plan} {due due' : PromiseId → Bool} {v : Value} {ρ : Nat}
    {k : Continuation Handler} (h : Sound S G due v ρ k) (hG : G.Le G')
    (hdue : ∀ p, due' p = true → due p = true) : Sound S G' due' v ρ k := by
  cases h with
  | adopt value rank => exact .adopt (hG.value value) (by rw [hG.rank value]; exact rank)
  | @resume t frame frame' env _ _ _ _ _ computes value scope same depth nested before rank weight =>
    have hw := Frame.waits_mono hdue env.bindings frame
    refine .resume computes (hG.value value) (scope.mono hG (Nat.le_refl _))
      (same.mono fun hx => hx.mono hG (Nat.le_refl _)) depth nested before ?_ ?_
    · rw [hG.rank value]
      omega
    · rw [hG.weight value]
      omega
  | compute tuple gives value rank weight =>
    exact .compute tuple gives (hG.value value) (by rw [hG.rank value]; exact rank)
      (by rw [hG.weight value]; exact weight)
  | gather gather value operand rank =>
    exact .gather (hG.gather gather) (hG.value value) operand (by rw [hG.rank value]; exact rank)

/-- The continuation is to settle the promise. -/
def Continuation.Targets (p : PromiseId) : Continuation Handler → Prop
  | .adopt t => t = p
  | .derive t _ => t = p
  | _ => False

/-- One if the continuation brings an operand of the gather. -/
def Continuation.feeds (id : GatherId) : Continuation Handler → Nat
  | .gather id' _ => if id' = id then 1 else 0
  | _ => 0

theorem Continuation.feeds_of_targets {p : PromiseId} {k : Continuation Handler} (h : k.Targets p)
    (id : GatherId) : k.feeds id = 0 := by
  cases k with
  | gather id' place => exact h.elim
  | _ => rfl

/-- A sound continuation stands for some work, unless it stands for no more than its own delivery. -/
theorem Sound.load_pos {S : Setting} {G : Plan} {due : PromiseId → Bool} {v : Value} {ρ : Nat}
    {k : Continuation Handler} (h : Sound S G due v ρ k) : 0 < G.load k := by
  cases h with
  | adopt => exact Nat.one_pos
  | resume _ _ _ _ _ _ _ _ weight => exact Nat.lt_of_lt_of_le (by omega) weight
  | compute _ _ _ _ weight => exact Nat.lt_of_lt_of_le (by omega) weight
  | gather => exact Nat.one_pos

/-- What a sound continuation settles has a higher rank than what it waits for. -/
theorem Sound.lt_of_targets {S : Setting} {G : Plan} {due : PromiseId → Bool} {v : Value} {ρ : Nat}
    {k : Continuation Handler} {p : PromiseId} (h : Sound S G due v ρ k) (hp : k.Targets p) :
    ρ < G.rank p := by
  cases h with
  | adopt _ rank =>
    obtain rfl := hp
    exact rank
  | resume _ _ _ _ _ _ before rank =>
    obtain rfl := hp
    omega
  | compute _ _ _ rank =>
    obtain rfl := hp
    exact rank
  | gather => exact hp.elim

namespace Setting

variable (S : Setting)

/-- Adds up a number for each continuation that waits for a promise the run is about. -/
def total (s : Store Handler) (f : Continuation Handler → Nat) : Nat :=
  ∑ i ∈ Finset.range s.promises.size,
    if S.watches ⟨i⟩ then ((s.state ⟨i⟩).waiting.map f).sum else 0

/-- The tasks that the run has put into the queue. -/
def tasks (m : Machine) : List Task := m.rest.queue.drop S.older

/-- The work that is left with promises and tasks, and in flight. -/
def load (G : Plan) (F : List (Continuation Handler)) (m : Machine) : Nat :=
  S.total m.store G.load + ((S.tasks m).map fun t => G.weight t.target).sum + (F.map G.load).sum

/-- The continuation waits for a promise or is in flight. -/
def Outstanding (F : List (Continuation Handler)) (s : Store Handler) (k : Continuation Handler) :
    Prop :=
  k ∈ F ∨ ∃ p ks, S.watches p = true ∧ s.state p = .pending ks ∧ k ∈ ks

end Setting

/-- The task computes what the plan says of its target. -/
inductive TaskSound (S : Setting) (G : Plan) (m : Machine) (task : Task) : Prop where
  | mk {captures bs : List Binding} {body : Expr} {d c τ : Nat} {w : Value}
      (function : m.function? task.function =
        some ⟨anonymousName, .code [] body, captures, none⟩)
      (computes : Computes S.context S.functions d bs (.eval body) w c)
      (value : G.value task.target = some w) (scope : ScopeStands S G τ captures bs)
      (depth : task.caller.callDepth + (d + 1) ≤ S.context.maxCallDepth) (nested : d + 1 ≤ S.nesting)
      (rank : τ + c < G.rank task.target) (weight : c + 2 ≤ G.weight task.target)

/-- Something is under way that will settle the promise. -/
inductive Supported (S : Setting) (G : Plan) (F : List (Continuation Handler)) (m : Machine)
    (p : PromiseId) : Prop where
  | continuation {k : Continuation Handler} (out : S.Outstanding F m.store k) (target : k.Targets p)
  | task {task : Task} (queued : task ∈ S.tasks m) (target : task.target = p)
  | gather {id : GatherId} {vs : List Value} {g : Gather} (gather : G.gather id = some (p, vs))
      (found : m.store.gathers[id.index]? = some g) (undone : g.done = false)

/-- The gather misses exactly the operands that are under way. -/
structure GatherGood (S : Setting) (G : Plan) (F : List (Continuation Handler)) (s : Store Handler)
    (id : GatherId) (r : PromiseId) (vs : List Value) (g : Gather) : Prop where
  result : g.result = r
  value : G.value r = some (.tuple vs)
  length : g.values.length = vs.length
  remaining : g.remaining =
    S.total s (Continuation.feeds id) + (F.map (Continuation.feeds id)).sum
  done : g.done = true ↔ g.remaining = 0
  places : ∀ i v, vs[i]? = some v → g.values[i]? = some v ∨ S.Outstanding F s (.gather id i)

/-- The promise is pending and another one. -/
def Store.dueBeside (s : Store Handler) (p q : PromiseId) : Bool := s.isPending q && q != p

/-- The machine is on its way to what the plan says, with continuations in flight. -/
structure Good (S : Setting) (G : Plan) (F : List (Continuation Handler)) (m : Machine) : Prop where
  quiet : m.rest.interrupted = false
  knows : m.Knows S.functions
  older : S.older ≤ m.rest.queue.length
  start : S.start ≤ m.store.promises.size
  watched : ∀ p, (∃ v, G.value p = some v) ↔ S.watches p = true ∧ m.store.Has p
  inert : ∀ {p v}, G.value p = some v → v.inert S.allows = true
  states : ∀ {p v}, G.value p = some v → m.store.state p = .fulfilled v ∨
    ∃ ks, m.store.state p = .pending ks ∧
      ∀ k ∈ ks, Sound S G (m.store.dueBeside p) v (G.rank p) k
  support : ∀ {p v ks}, G.value p = some v → m.store.state p = .pending ks → Supported S G F m p
  aimed : ∀ {k p}, S.Outstanding F m.store k → k.Targets p → ∃ v, G.value p = some v
  known : ∀ {id i}, S.Outstanding F m.store (.gather id i) → ∃ x, G.gather id = some x
  gathers : ∀ {id r vs}, G.gather id = some (r, vs) →
    ∃ g, m.store.gathers[id.index]? = some g ∧ GatherGood S G F m.store id r vs g
  tasks : ∀ task ∈ S.tasks m, TaskSound S G m task

/-- One machine is on the way from another: the plan has been extended, what is settled stays so, and
functions stay. -/
structure Advance (S : Setting) (G : Plan) (m : Machine) (G' : Plan) (m' : Machine) : Prop where
  plan : G.Le G'
  settled : ∀ {p}, m'.store.isPending p = true → m.store.isPending p = true
  functions : ∀ {id f}, m.function? id = some f → m'.function? id = some f

namespace Advance

variable {S : Setting} {G G' G'' : Plan} {m m' m'' : Machine}

theorem refl (G : Plan) (m : Machine) : Advance S G m G m :=
  ⟨.refl G, fun h => h, fun h => h⟩

theorem trans (h : Advance S G m G' m') (h' : Advance S G' m' G'' m'') : Advance S G m G'' m'' :=
  ⟨h.plan.trans h'.plan, fun hp => h.settled (h'.settled hp),
    fun hf => h'.functions (h.functions hf)⟩

end Advance

/-! ## Adding up -/

namespace Setting

variable {S : Setting} {s : Store Handler} {p : PromiseId}

theorem total_setState (hp : S.watches p = true) (hs : s.Has p) (x : PromiseState Handler)
    (f : Continuation Handler → Nat) :
    S.total (s.setState p x) f + ((s.state p).waiting.map f).sum =
      S.total s f + (x.waiting.map f).sum := by
  obtain ⟨j⟩ := p
  have hsize : (s.setState ⟨j⟩ x).promises.size = s.promises.size := by simp [Store.setState]
  have hmem : j ∈ Finset.range s.promises.size := Finset.mem_range.2 hs
  have hsame : ∀ i ∈ (Finset.range s.promises.size).erase j,
      (if S.watches ⟨i⟩ then (((s.setState ⟨j⟩ x).state ⟨i⟩).waiting.map f).sum else 0) =
        if S.watches ⟨i⟩ then ((s.state ⟨i⟩).waiting.map f).sum else 0 := by
    intro i hi
    have hne : (⟨i⟩ : PromiseId) ≠ ⟨j⟩ := fun he => (Finset.mem_erase.1 hi).1 (PromiseId.mk.inj he)
    rw [Store.state_setState_ne hne]
  rw [total, total, hsize, ← Finset.add_sum_erase _ _ hmem, ← Finset.add_sum_erase _ _ hmem,
    Finset.sum_congr rfl hsame]
  rw [Store.state_setState_self hs, if_pos hp, if_pos hp]
  omega

theorem total_fresh (s : Store Handler) (f : Continuation Handler → Nat) :
    S.total s.fresh.2 f = S.total s f := by
  have hsize : s.fresh.2.promises.size = s.promises.size + 1 := by simp [Store.fresh]
  have hnew : (s.state ⟨s.promises.size⟩).waiting = [] := by
    rw [Store.state_of_not_has (by simp [Store.Has])]
    rfl
  simp only [total, hsize, Finset.sum_range_succ, Store.state_fresh, hnew, List.map_nil, List.sum_nil,
    ite_self, Nat.add_zero]

theorem total_eq_zero {f : Continuation Handler → Nat}
    (h : ∀ p ks, S.watches p = true → s.state p = .pending ks → ∀ k ∈ ks, f k = 0) :
    S.total s f = 0 := by
  refine Finset.sum_eq_zero fun i _ => ?_
  split
  · rename_i hw
    cases hs : s.state ⟨i⟩ with
    | pending ks =>
      refine List.sum_eq_zero fun n hn => ?_
      obtain ⟨k, hk, rfl⟩ := List.mem_map.1 hn
      exact h ⟨i⟩ ks hw hs k hk
    | _ => rfl
  · rfl

theorem total_congr {s s' : Store Handler} (hsize : s'.promises.size = s.promises.size)
    (hstate : ∀ p, s'.state p = s.state p) (f : Continuation Handler → Nat) :
    S.total s' f = S.total s f := by
  simp only [total, hsize, hstate]

theorem total_mono {f g : Continuation Handler → Nat}
    (h : ∀ p ks, S.watches p = true → s.state p = .pending ks → ∀ k ∈ ks, f k = g k) :
    S.total s f = S.total s g := by
  refine Finset.sum_congr rfl fun i _ => ?_
  split
  · rename_i hw
    cases hs : s.state ⟨i⟩ with
    | pending ks =>
      refine congrArg List.sum (List.map_congr_left fun k hk => ?_)
      exact h ⟨i⟩ ks hw hs k hk
    | _ => rfl
  · rfl

end Setting

end Deferral
