import Deferral.Proofs.Termination.Tariff
import Deferral.Proofs.Value.Legible

/-!
# Runs that can be afforded

`Affords T x m b`: from the machine `m`, the computation `x` comes to an end that is the same for all
fuel above some amount, and the potential of the machine grows by at most the budget `b`. The end is no
lack of fuel, unless there is no text of what was to be put into one. `Pays T c d x b` says so of all
machines at the depth of calls `d` whose potential leaves room for `b` within `c`. Budgets add up when
computations are put in sequence.

The promise operations need little: settling a promise is paid for by what was owed to the
continuations that wait for it, and only registering a continuation has to bring what that continuation
is owed.
-/

set_option autoImplicit false

namespace Deferral

open Outcomes

/-- What a run may leave behind. -/
structure Spent (T : Tariff) (m : Machine) (budget : Nat) (m' : Machine) : Prop where
  potential : m'.potential T ≤ m.potential T + budget
  depth : m'.rest.env.callDepth = m.rest.env.callDepth
  later : Later m.store.outcome? m'.store.outcome?
  sane : m'.Sane T

/-- The run was cut short by a lack of fuel, where no promise is inside of itself. -/
def RanOut {α : Type} (r : EStateM.Result Abort Machine α) : Prop :=
  ∃ m, r = .error .outOfFuel m ∧ ¬Tangled m.store.outcome?

/-- With enough fuel the run comes to an end, within the budget. -/
def Affords (T : Tariff) {α : Type} (x : Nat → EvalM α) (m : Machine) (budget : Nat) : Prop :=
  ∃ r N, (∀ n, N ≤ n → x n m = r) ∧ ¬RanOut r ∧ Spent T m budget (finalWorld r)

/-- Wherever the potential leaves room for it, the computation can be afforded. -/
def Pays (T : Tariff) (c d : Nat) {α : Type} (x : Nat → EvalM α) (budget : Nat) : Prop :=
  ∀ m : Machine, m.Sane T → m.rest.env.callDepth = d → m.potential T + budget ≤ c →
    Affords T x m budget

variable {T : Tariff} {c d : Nat} {α β : Type} {m m' m'' : Machine} {b b' b₁ b₂ : Nat}

theorem not_ranOut_ok {a : α} : ¬RanOut (.ok a m) := by
  rintro ⟨_, h, -⟩
  cases h

theorem ranOut_error {abort : Abort} :
    RanOut (.error abort m : EStateM.Result Abort Machine α) ↔
      abort = .outOfFuel ∧ ¬Tangled m.store.outcome? := by
  constructor
  · rintro ⟨_, h, hfree⟩
    cases h
    exact ⟨rfl, hfree⟩
  · rintro ⟨rfl, hfree⟩
    exact ⟨m, rfl, hfree⟩

theorem not_ranOut_error {abort : Abort} (h : abort ≠ .outOfFuel) :
    ¬RanOut (.error abort m : EStateM.Result Abort Machine α) :=
  fun hr => h (ranOut_error.1 hr).1

/-- Cutting short another run in the same way changes nothing. -/
theorem not_ranOut_of_error {abort : Abort}
    (h : ¬RanOut (.error abort m : EStateM.Result Abort Machine α))
    {m' : Machine} (hm : m'.store = m.store) :
    ¬RanOut (.error abort m' : EStateM.Result Abort Machine β) := by
  rwa [ranOut_error, hm, ← ranOut_error (α := α)]

namespace Spent

theorem refl (h : m.Sane T) (b : Nat) : Spent T m b m := ⟨Nat.le_add_right _ _, rfl, .refl _, h⟩

theorem trans (h : Spent T m b₁ m') (h' : Spent T m' b₂ m'') : Spent T m (b₁ + b₂) m'' where
  potential := by
    have := h.potential
    have := h'.potential
    omega
  depth := h'.depth.trans h.depth
  later := h.later.trans h'.later
  sane := h'.sane

theorem mono (h : Spent T m b m') (hb : b ≤ b') : Spent T m b' m' :=
  ⟨h.potential.trans (Nat.add_le_add_left hb _), h.depth, h.later, h.sane⟩

end Spent

theorem Machine.Sane.withEnv (h : m.Sane T) (env : Environment) : (m.withEnv env).Sane T :=
  ⟨h.flat, h.functions, h.suspended⟩

/-! ## Computations in sequence -/

namespace Affords

variable {x : Nat → EvalM α}

/-- A run that does not depend on the fuel. -/
theorem of_eq {r : EStateM.Result Abort Machine α} (h : ∀ n, x n m = r) (hr : ¬RanOut r)
    (hspent : Spent T m b (finalWorld r)) : Affords T x m b :=
  ⟨r, 0, fun n _ => h n, hr, hspent⟩

theorem ok {a : α} (h : ∀ n, x n m = .ok a m') (hspent : Spent T m b m') : Affords T x m b :=
  of_eq h not_ranOut_ok hspent

theorem mono (h : Affords T x m b) (hb : b ≤ b') : Affords T x m b' := by
  obtain ⟨r, N, hx, hr, hspent⟩ := h
  exact ⟨r, N, hx, hr, hspent.mono hb⟩

theorem congr {y : Nat → EvalM α} (h : Affords T x m b) (hxy : ∀ n, y n m = x n m) :
    Affords T y m b := by
  obtain ⟨r, N, hx, hr, hspent⟩ := h
  exact ⟨r, N, fun n hn => (hxy n).trans (hx n hn), hr, hspent⟩

/-- One more level of fuel. -/
theorem succ {y : Nat → EvalM α} (h : Affords T x m b) (hxy : ∀ n, y (n + 1) m = x n m) :
    Affords T y m b := by
  obtain ⟨r, N, hx, hr, hspent⟩ := h
  refine ⟨r, N + 1, fun n hn => ?_, hr, hspent⟩
  obtain ⟨k, rfl⟩ : ∃ k, n = k + 1 := ⟨n - 1, by omega⟩
  rw [hxy, hx k (by omega)]

/-- A step on the machine may come first; what it sets free can be spent. -/
theorem after {y : Nat → EvalM α} (h : Affords T x m' b') (hy : ∀ n, y n m = x n m')
    (hpotential : m'.potential T + b' ≤ m.potential T + b)
    (hdepth : m'.rest.env.callDepth = m.rest.env.callDepth)
    (hlater : Later m.store.outcome? m'.store.outcome?) : Affords T y m b := by
  obtain ⟨r, N, hx, hr, hspent⟩ := h
  exact ⟨r, N, fun n hn => (hy n).trans (hx n hn), hr, hspent.potential.trans hpotential,
    hspent.depth.trans hdepth, hlater.trans hspent.later, hspent.sane⟩

theorem bind {f : Nat → α → EvalM β} (hx : Affords T x m b₁)
    (hf : ∀ a m', (∃ n, x n m = .ok a m') → Spent T m b₁ m' →
      Affords T (fun n => f n a) m' b₂) :
    Affords T (fun n => x n >>= f n) m (b₁ + b₂) := by
  obtain ⟨r, N, hx, hr, hspent⟩ := hx
  cases r with
  | error e m' =>
    refine ⟨.error e m', N, fun n hn => ?_, ?_, hspent.mono (Nat.le_add_right _ _)⟩
    · change EStateM.bind (x n) (f n) m = _
      rw [EStateM.bind, hx n hn]
    · exact not_ranOut_of_error hr rfl
  | ok a m' =>
    obtain ⟨r, N', hy, hr', hspent'⟩ := hf a m' ⟨N, hx N (Nat.le_refl N)⟩ hspent
    refine ⟨r, max N N', fun n hn => ?_, hr', hspent.trans hspent'⟩
    change (x n >>= f n) m = r
    rw [EvalM.bind_of_ok (hx n (by omega))]
    exact hy n (by omega)

/-- What is made of the end of a run, where the machine is left as it is. -/
theorem translated {y : Nat → EvalM β} (h : Affords T x m b)
    (hy : ∀ r, ¬RanOut r → ∃ r', (∀ n, x n m = r → y n m = r') ∧ ¬RanOut r' ∧
      finalWorld r' = finalWorld r) : Affords T y m b := by
  obtain ⟨r, N, hx, hr, hspent⟩ := h
  obtain ⟨r', hend, hr', hworld⟩ := hy r hr
  exact ⟨r', N, fun n hn => hend n (hx n hn), hr', hworld ▸ hspent⟩

/-- What is done to the environment at the end of a run keeps the depth of calls. -/
theorem ensuring (after : Machine → Machine) (h : Affords T x m' b)
    (hm : m'.potential T = m.potential T) (hσ : m'.store.outcome? = m.store.outcome?)
    (hafter : ∀ m'', m''.rest.env.callDepth = m'.rest.env.callDepth →
      ∃ env, after m'' = m''.withEnv env ∧ env.callDepth = m.rest.env.callDepth)
    {y : Nat → EvalM α} (hy : ∀ n, y n m = EvalM.ensuring (x n) after m') : Affords T y m b := by
  obtain ⟨r, N, hx, hr, hspent⟩ := h
  obtain ⟨env, henv, hdepth⟩ := hafter (finalWorld r) hspent.depth
  have hspent' : Spent T m b (after (finalWorld r)) := by
    rw [henv]
    exact ⟨hm ▸ hspent.potential, hdepth, hσ ▸ hspent.later, hspent.sane.withEnv env⟩
  cases r with
  | ok a m'' =>
    exact ⟨.ok a (after m''), N, fun n hn => by rw [hy, EvalM.ensuring, hx n hn], not_ranOut_ok,
      hspent'⟩
  | error e m'' =>
    refine ⟨.error e (after m''), N, fun n hn => ?_, not_ranOut_of_error hr ?_, hspent'⟩
    · rw [hy, EvalM.ensuring, hx n hn]
    · exact congrArg (·.store) henv

theorem outcome (h : Affords T x m b) : Affords T (fun n => EvalM.outcome (x n)) m b := by
  refine h.translated fun r hr => ?_
  cases r with
  | ok a m' => exact ⟨.ok (.ok a) m', fun n hn => by rw [EvalM.outcome, hn], not_ranOut_ok, rfl⟩
  | error abort m' =>
    cases abort with
    | error e =>
      exact ⟨.ok (.error e) m', fun n hn => by rw [EvalM.outcome, hn], not_ranOut_ok, rfl⟩
    | panic payload =>
      exact ⟨.error (.panic payload) m', fun n hn => by rw [EvalM.outcome, hn],
        not_ranOut_error (fun h => by cases h), rfl⟩
    | outOfFuel =>
      exact ⟨.error .outOfFuel m', fun n hn => by rw [EvalM.outcome, hn],
        not_ranOut_of_error hr rfl, rfl⟩

theorem contained (h : Affords T x m b) : Affords T (fun n => EvalM.contained (x n)) m b := by
  refine h.translated fun r hr => ?_
  cases r with
  | ok a m' => exact ⟨.ok (.ok a) m', fun n hn => by rw [EvalM.contained, hn], not_ranOut_ok, rfl⟩
  | error abort m' =>
    cases abort with
    | error e =>
      exact ⟨.ok (.error e) m', fun n hn => by rw [EvalM.contained, hn], not_ranOut_ok, rfl⟩
    | panic payload =>
      exact ⟨.ok (.error (.taskFailed (payload.getD "task panicked"))) m',
        fun n hn => by rw [EvalM.contained, hn], not_ranOut_ok, rfl⟩
    | outOfFuel =>
      exact ⟨.error .outOfFuel m', fun n hn => by rw [EvalM.contained, hn],
        not_ranOut_of_error hr rfl, rfl⟩

theorem traced (h : Affords T x m b) (stack : StackTrace) :
    Affords T (fun n => EvalM.traced stack (x n)) m b := by
  refine h.translated fun r hr => ?_
  cases r with
  | ok a m' => exact ⟨.ok a m', fun n hn => by rw [EvalM.traced, hn], hr, rfl⟩
  | error abort m' =>
    cases abort with
    | error e =>
      exact ⟨.error (.error (e.withStack stack)) m', fun n hn => by rw [EvalM.traced, hn],
        not_ranOut_error (fun h => by cases h), rfl⟩
    | panic payload =>
      exact ⟨.error (.panic payload) m', fun n hn => by rw [EvalM.traced, hn], hr, rfl⟩
    | outOfFuel =>
      exact ⟨.error .outOfFuel m', fun n hn => by rw [EvalM.traced, hn], not_ranOut_of_error hr rfl, rfl⟩

/-- The present environment is there again afterwards. -/
theorem within {env : Environment} (h : Affords T x (m.withEnv env) b) :
    Affords T (fun n => EvalM.within env (x n)) m b :=
  .ensuring (m := m) (fun m' => m'.withEnv m.rest.env) h rfl rfl (fun _ _ => ⟨m.rest.env, rfl, rfl⟩)
    fun _ => rfl

theorem inFrame (h : Affords T x (m.withEnv m.rest.env.openFrame) b) :
    Affords T (fun n => EvalM.inFrame (x n)) m b :=
  .ensuring (m := m) (fun m' => m'.withEnv m'.rest.env.closeFrame) h rfl rfl
    (fun m' hm' => ⟨m'.rest.env.closeFrame, rfl, (Environment.callDepth_closeFrame _).trans hm'⟩)
    fun _ => rfl

end Affords

namespace Pays

variable {x : Nat → EvalM α}

theorem mono (h : Pays T c d x b) (hb : b ≤ b') : Pays T c d x b' := fun m hm hd hc =>
  (h m hm hd (by omega)).mono hb

/-- What costs one less can be paid with room for one less. -/
theorem ascend (h : Pays T c d x (b - 1)) (hb : 0 < b) : Pays T (c + 1) d x b := fun m hm hd hc =>
  (h m hm hd (by omega)).mono (Nat.sub_le b 1)

theorem pure (a : α) : Pays T c d (fun _ => Pure.pure a) 0 := fun _ hm _ _ =>
  .ok (fun _ => rfl) (.refl hm 0)

theorem fail (e : Error) : Pays T c d (fun _ => (EvalM.fail e : EvalM α)) 0 := fun m hm _ _ =>
  .of_eq (r := .error (.error e) m) (fun _ => rfl) (not_ranOut_error (fun h => by cases h)) (.refl hm 0)

theorem ofExcept (r : Except Error α) : Pays T c d (fun _ => EvalM.ofExcept r) 0 := by
  cases r with
  | ok a => exact pure a
  | error e => exact fail e

theorem bind_of {f : Nat → α → EvalM β} (hx : Pays T c d x b₁)
    (hf : ∀ a, (∃ n m m', x n m = .ok a m') → Pays T c d (fun n => f n a) b₂) :
    Pays T c d (fun n => x n >>= f n) (b₁ + b₂) := fun m hm hd hc =>
  (hx m hm hd (by omega)).bind fun a m' hrun hspent =>
    hf a ⟨hrun.choose, m, m', hrun.choose_spec⟩ m' hspent.sane (hspent.depth.trans hd) (by
      have := hspent.potential
      omega)

theorem bind {f : Nat → α → EvalM β} (hx : Pays T c d x b₁)
    (hf : ∀ a, Pays T c d (fun n => f n a) b₂) : Pays T c d (fun n => x n >>= f n) (b₁ + b₂) :=
  bind_of hx fun a _ => hf a

/-- What does not cost anything may come first. -/
theorem free {f : Nat → α → EvalM β} (hx : Pays T c d x 0)
    (hf : ∀ a, Pays T c d (fun n => f n a) b) : Pays T c d (fun n => x n >>= f n) b :=
  mono (bind hx hf) (Nat.zero_add b).le

/-- What a check lets through is known to have passed it. -/
theorem check {r : Except Error α} {f : Nat → α → EvalM β}
    (hf : ∀ a, r = .ok a → Pays T c d (fun n => f n a) b) :
    Pays T c d (fun n => EvalM.ofExcept r >>= f n) b := by
  cases r with
  | ok a => exact fun m hm hd hc => (hf a rfl m hm hd hc).congr fun _ => rfl
  | error e =>
    exact fun m hm hd hc => ((fail e m hm hd (Nat.le_of_add_right_le hc)).mono (Nat.zero_le b)).congr
      fun _ => rfl

/-- What is read from the machine is free. -/
theorem gets {f : Machine → α} {g : Nat → α → EvalM β}
    (h : ∀ m, m.Sane T → m.rest.env.callDepth = d → Pays T c d (fun n => g n (f m)) b) :
    Pays T c d (fun n => EvalM.gets f >>= g n) b :=
  fun m hm hd hc => (h m hm hd m hm hd hc).congr fun _ => rfl

/-- A value can be put into text, or a promise is inside of itself. -/
theorem written {text : Machine → Option α}
    (h : ∀ m, text m = none → Tangled m.store.outcome?) :
    Pays T c d (fun _ => EvalM.written text) 0 := by
  intro m hm _ _
  cases htext : text m with
  | some a => exact .ok (fun _ => EvalM.written_of_some htext) (.refl hm 0)
  | none =>
    refine .of_eq (r := .error .outOfFuel m) (fun _ => EvalM.written_of_none htext) ?_ (.refl hm 0)
    exact fun hr => (ranOut_error.1 hr).2 (h m htext)

theorem quoted (v : Value) : Pays T c d (fun _ => EvalM.quoted v) 0 :=
  written fun _ => Machine.tangled_of_quoted?

theorem noMatch (v : Value) : Pays T c d (fun _ => (EvalM.noMatch v : EvalM α)) 0 :=
  free (quoted v) fun _ => fail _

theorem outcome (h : Pays T c d x b) : Pays T c d (fun n => EvalM.outcome (x n)) b :=
  fun m hm hd hc => (h m hm hd hc).outcome

theorem contained (h : Pays T c d x b) : Pays T c d (fun n => EvalM.contained (x n)) b :=
  fun m hm hd hc => (h m hm hd hc).contained

theorem traced (h : Pays T c d x b) (stack : StackTrace) :
    Pays T c d (fun n => EvalM.traced stack (x n)) b :=
  fun m hm hd hc => (h m hm hd hc).traced stack

theorem within {env : Environment} (h : Pays T c env.callDepth x b) :
    Pays T c d (fun n => EvalM.within env (x n)) b :=
  fun m hm _ hc => .within (h (m.withEnv env) (hm.withEnv env) rfl hc)

theorem inFrame (h : Pays T c d x b) : Pays T c d (fun n => EvalM.inFrame (x n)) b :=
  fun m hm hd hc => .inFrame (h (m.withEnv m.rest.env.openFrame) (hm.withEnv _) hd hc)

/-- What concerns neither promises nor functions nor the queue is free. -/
theorem modifyRest {f : Surroundings → Surroundings}
    (hdepth : ∀ s, (f s).env.callDepth = s.env.callDepth)
    (hfunctions : ∀ s, (f s).functions = s.functions) (hqueue : ∀ s, (f s).queue = s.queue) :
    Pays T c d (fun _ => EvalM.modifyRest f) 0 := by
  intro m hm _ _
  have hspent : Spent T m 0 { m with rest := f m.rest } := by
    refine ⟨?_, hdepth m.rest, .refl _, hm.flat, fun id g params body hg => ?_, hm.suspended⟩
    · change debt T m.store.outcome? m.store.waits + Machine.tasksCost T (f m.rest).queue ≤ _
      rw [hqueue]
      exact Nat.le_refl _
    · change (f m.rest).functions[id.index]? = some g at hg
      rw [hfunctions] at hg
      exact hm.functions id g params body hg
  exact .ok (fun _ => rfl) hspent

theorem define (bindings : List (String × Value)) :
    Pays T c d (fun _ => EvalM.modifyEnvironment (·.defineAll bindings)) 0 :=
  modifyRest (fun s => by
    change (s.env.defineAll bindings).callDepth = _
    rw [Environment.defineAll_eq_grow, Environment.callDepth_grow]) (fun _ => rfl) fun _ => rfl

end Pays

/-! ## Promises -/

namespace Spent

/-- A change of the store that nothing that waits and no outcome depends on. -/
theorem of_store {s : Store Handler} (hm : m.Sane T) (hwaits : s.waits = m.store.waits)
    (hstate : ∀ p, s.state p = m.store.state p) : Spent T m 0 (m.withStore s) := by
  have hσ : s.outcome? = m.store.outcome? := funext fun p => by rw [Store.outcome?, hstate]; rfl
  refine ⟨?_, rfl, ?_, hm.flat.of_state_eq hstate, hm.functions, ?_⟩
  · change debt T s.outcome? s.waits + _ ≤ _
    rw [hσ, hwaits]
    exact Nat.le_refl _
  · change Later _ s.outcome?
    rw [hσ]
    exact .refl _
  · change ∀ e ∈ s.waits, _
    rw [hwaits]
    exact hm.suspended

/-- A continuation that comes to wait is what is spent. -/
theorem register {p : PromiseId} {k : Continuation Handler} (hm : m.Sane T) (hk : k.size ≤ T.code)
    (hb : owed T m.store.outcome? p k ≤ b) :
    Spent T m b (m.withStore (m.store.register p k).2) := by
  have hlater : Later m.store.outcome? (m.store.register p k).2.outcome? :=
    fun _ _ => Store.outcome?_register k
  have hwaits := Store.waits_register_le p k m.store
  refine ⟨?_, rfl, hlater, hm.flat.register p k, hm.functions, fun e he => ?_⟩
  · have hdebt := (debt_later (T := T) hlater _).trans (debt_le hwaits)
    rw [debt_cons] at hdebt
    change debt T (m.store.register p k).2.outcome? (m.store.register p k).2.waits +
      Machine.tasksCost T m.rest.queue ≤ debt T m.store.outcome? m.store.waits +
        Machine.tasksCost T m.rest.queue + b
    omega
  · rcases Multiset.mem_cons.1 (Multiset.mem_of_le hwaits he) with rfl | he
    · exact hk
    · exact hm.suspended e he

end Spent

theorem Machine.Sane.settle {p : PromiseId} {o : Outcome} (hm : m.Sane T) (ho : Concrete o) :
    (m.withStore (m.store.settle p o).2).Sane T := by
  refine ⟨hm.flat.settle p ho, hm.functions, fun e he => hm.suspended e ?_⟩
  rw [← Store.waits_settle_add p o m.store]
  exact Multiset.mem_add.2 (.inl he)

/-- Outcomes are delivered at the cost of the continuation, while the potential leaves room for it. -/
def Delivering (T : Tariff) (c : Nat)
    (deliver : Nat → Continuation Handler → Outcome → EvalM Unit) : Prop :=
  ∀ (k : Continuation Handler) (o : Outcome) (m : Machine), m.Sane T → Concrete o →
    k.size ≤ T.code → m.potential T + k.cost T m.store.outcome? ≤ c →
      Affords T (fun n => deliver n k o) m (k.cost T m.store.outcome?)

theorem Pays.new : Pays T c d (fun _ => Promise.new) 0 := fun _ hm _ _ =>
  .ok (fun _ => rfl) (.of_store hm (Store.waits_fresh _) (Store.state_fresh _))

namespace Delivering

variable {deliver : Nat → Continuation Handler → Outcome → EvalM Unit} {p : PromiseId}
  {o : Outcome} {k : Continuation Handler} (hd : Delivering T c deliver)
include hd

/-- What is owed to continuations pays for all of them. -/
theorem deliverAll (ho : Concrete o) {σ : Outcomes} {ks : List (Continuation Handler)}
    (hm : m.Sane T) (hσ : Later σ m.store.outcome?)
    (hks : ∀ k ∈ ks, (m.store.outcome? p).isSome ∧ k.size ≤ T.code)
    (hc : m.potential T + debt T σ (Continuation.awaiting p ks) ≤ c) :
    Affords T (fun n => Promise.deliverAll (deliver n) ks o) m
      (debt T σ (Continuation.awaiting p ks)) := by
  induction ks generalizing m with
  | nil => exact .ok (fun _ => rfl) (.refl hm _)
  | cons k rest ih =>
    have hsplit : debt T σ (Continuation.awaiting p (k :: rest)) =
        owed T σ p k + debt T σ (Continuation.awaiting p rest) :=
      debt_cons (p := p) (k := k) (Continuation.awaiting p rest)
    obtain ⟨hknown, hk⟩ := hks k (.head _)
    -- what is owed was settled on at `σ`; by now more is known, which makes nothing dearer
    have hcost : k.cost T m.store.outcome? ≤ owed T σ p k := cost_le_owed hσ hknown
    rw [hsplit] at hc ⊢
    refine ((hd k o m hm ho hk (by omega)).mono hcost).bind fun _ m' _ hspent => ?_
    have hpotential := hspent.potential
    refine ih hspent.sane (hσ.trans hspent.later) (fun k' hk' => ⟨?_, (hks k' (.tail _ hk')).2⟩)
      (by omega)
    obtain ⟨o', ho'⟩ := Option.isSome_iff_exists.1 hknown
    rw [hspent.later p o' ho']
    rfl

/-- Settling a promise is paid for by what is owed to those who wait for it. -/
theorem settle (ho : Concrete o) (p : PromiseId) :
    Pays T c d (fun n => Promise.settle (deliver n) p o) 0 := by
  intro m hm _ hc
  have hlater : Later m.store.outcome? (m.store.settle p o).2.outcome? :=
    fun _ _ => Store.outcome?_settle o
  have hdebt : debt T (m.store.settle p o).2.outcome? (m.store.settle p o).2.waits +
      debt T (m.store.settle p o).2.outcome? (Continuation.awaiting p (m.store.settle p o).1) ≤
        debt T m.store.outcome? m.store.waits := by
    rw [← debt_add, Store.waits_settle_add]
    exact debt_later hlater _
  have hpotential : (m.withStore (m.store.settle p o).2).potential T +
      debt T (m.store.settle p o).2.outcome? (Continuation.awaiting p (m.store.settle p o).1) ≤
        m.potential T := by
    change debt T (m.store.settle p o).2.outcome? (m.store.settle p o).2.waits +
      Machine.tasksCost T m.rest.queue + _ ≤ debt T m.store.outcome? m.store.waits +
        Machine.tasksCost T m.rest.queue
    omega
  have hdue : ∀ k ∈ (m.store.settle p o).1,
      ((m.store.settle p o).2.outcome? p).isSome ∧ k.size ≤ T.code := by
    intro k hk
    refine ⟨Store.isSome_outcome?_of_mem_settle hk, hm.suspended (p, k) ?_⟩
    rw [← Store.waits_settle_add p o m.store]
    exact Multiset.mem_add.2 (.inr (List.mem_map.2 ⟨k, hk, rfl⟩))
  exact (hd.deliverAll (m := m.withStore (m.store.settle p o).2) ho (hm.settle ho) (.refl _) hdue
    (hpotential.trans (by omega))).after (fun _ => rfl) hpotential rfl hlater

/-- Whoever registers a continuation brings what it is owed. -/
theorem onComplete (hk : k.size ≤ T.code) (hm : m.Sane T) (hb : owed T m.store.outcome? p k ≤ b)
    (hc : m.potential T + b ≤ c) :
    Affords T (fun n => Promise.onComplete (deliver n) p k) m b := by
  have hspent := Spent.register hm hk hb
  rcases Store.register_cases p k m.store with ⟨ks, hp, hs⟩ | ⟨o, hp, hs⟩
  · refine .ok (a := ()) (fun n => ?_) hspent
    simp only [Promise.onComplete, Promise.onStore, Bind.bind, EStateM.bind, hs]
    rfl
  · have hknown : m.store.outcome? p = some o := by
      rw [Store.outcome?, hp, PromiseState.outcome?_ofOutcome]
    have hcost : k.cost T m.store.outcome? ≤ b :=
      (cost_le_owed (.refl _) (by rw [hknown]; rfl)).trans hb
    refine ((hd k o m hm (hm.flat p o hp) hk (by omega)).mono hcost).congr fun n => ?_
    simp only [Promise.onComplete, Promise.onStore, Bind.bind, EStateM.bind, hs]

/-- Giving a promise an outcome may leave one promise waiting for another. -/
theorem fulfil (p : PromiseId) (o : Outcome) :
    Pays T c d (fun n => Promise.fulfil (deliver n) p o) 1 := by
  rcases concrete_or_promise o with ho | ⟨q, rfl⟩
  · simp only [Promise.fulfil_concrete _ ho]
    exact (hd.settle ho p).mono (Nat.zero_le 1)
  · by_cases hq : q = p
    · subst hq
      simp only [Promise.fulfil_self]
      exact (hd.settle (concrete_error _) q).mono (Nat.zero_le 1)
    · simp only [Promise.fulfil_other _ hq]
      exact fun m hm _ hc => hd.onComplete (Nat.zero_le _) hm (owed_le fun _ _ _ => Nat.le_refl 1) hc

theorem derive (handler : Handler) (hsize : handler.size ≤ T.code) (hm : m.Sane T)
    (hb : ∀ σ, Later m.store.outcome? σ → (σ p).isSome → handler.cost T σ + 2 ≤ b)
    (hc : m.potential T + b ≤ c) :
    Affords T (fun n => Promise.derive (deliver n) p handler) m b := by
  have hnew := Pays.new (c := c) (d := m.rest.env.callDepth) m hm rfl (by omega)
  rw [← Nat.zero_add b]
  refine hnew.bind fun q m' _ hspent => ?_
  have hpotential := hspent.potential
  rw [← Nat.add_zero b]
  refine (hd.onComplete (k := .derive q handler) hsize hspent.sane (owed_le fun σ hσ hp =>
    hb σ (hspent.later.trans hσ) hp) (by omega)).bind fun _ m'' _ hspent' =>
      .ok (fun _ => rfl) (.refl hspent'.sane 0)

theorem watch (id : GatherId) (awaited : List (Nat × PromiseId)) :
    Pays T c d (fun n => Promise.watch (deliver n) id awaited) awaited.length := by
  induction awaited with
  | nil => exact .pure ()
  | cons a rest ih =>
    rw [List.length_cons, Nat.add_comm]
    exact .bind (fun m hm _ hc => hd.onComplete (Nat.zero_le _) hm
      (owed_le fun _ _ _ => Nat.le_refl 1) hc) fun _ => ih

/-- A gather waits for each of its operands. -/
theorem all (operands : List Value) :
    Pays T c d (fun n => Promise.all (deliver n) operands) operands.length := by
  have hlength := Promise.length_places_le 0 operands
  unfold Promise.all
  cases hplaces : Promise.places 0 operands with
  | nil =>
    refine Pays.mono (b := 0 + (0 + 0)) (.bind .new fun p => .bind ?_ fun _ => .pure p) (Nat.zero_le _)
    simp only [Promise.fulfil_concrete _ (o := .ok (.tuple operands)) fun q h => by cases h]
    exact hd.settle (fun q h => by cases h) p
  | cons a rest =>
    rw [hplaces] at hlength
    refine Pays.mono (b := 0 + (0 + ((a :: rest).length + 0))) (.bind .new fun result =>
      .bind (fun m hm _ _ => ?_) fun id => .bind (hd.watch id (a :: rest)) fun _ => .pure result)
      (by omega)
    exact .ok (fun _ => rfl) (.of_store hm (Store.waits_addGather _ _) (Store.state_addGather _ _))

end Delivering

end Deferral
