import Deferral.Proofs.Eval.Abreast

/-!
# Counting how often a handler is started

Whether and how often the handler behind a promise has been run cannot be read off the result of a run.
`observed q` is an engine that does what the engine does and writes one more entry to the log each time
the handler that is to settle `q` is given a value. A machine is the `Twin` of another if it has some
number of log entries more and is the same otherwise, so what a run and its observed twin differ by is
the number of starts.

As long as only promises newer than `q` are settled there is nothing to observe, and the two engines go
abreast (`abreast_observed`).
-/

set_option autoImplicit false

namespace Deferral

/-- Whether the handler that is to settle a promise is given a value. -/
def starts (q : PromiseId) : Continuation Handler → Outcome → Bool
  | .derive target _, .ok _ => target == q
  | _, _ => false

/-- The engine, with an entry in the log for each start of the handler behind a promise. -/
def observed (q : PromiseId) (context : Context) : Nat → Engine
  | 0 => .exhausted context
  | n + 1 =>
    { (observed q context n).step with
      deliver := fun k o => do
        if starts q k o then EvalM.log (.outcome "started" (.ok .unit))
        (observed q context n).deliverStep k o }

theorem starts_of_rel {r : Handler → Handler → Prop} (q : PromiseId) {k k' : Continuation Handler}
    (hk : Continuation.Rel r k k') (o : Outcome) : starts q k' o = starts q k o := by
  cases hk <;> cases o <;> rfl

theorem Store.Admits.not_starts {b : Fence} {s : Store Handler} {q : PromiseId}
    {k : Continuation Handler} (h : s.Admits b k) (hq : q.index < b.promises) (o : Outcome) :
    starts q k o = false := by
  cases k with
  | derive target handler =>
    have hne : target ≠ q := by
      rintro rfl
      exact absurd h.1 (Nat.not_le.2 hq)
    cases o <;> simp [starts, hne]
  | _ => rfl

theorem observed_deliver (q : PromiseId) (context : Context) (n : Nat) {k : Continuation Handler}
    {o : Outcome} (h : starts q k o = false) :
    (observed q context (n + 1)).deliver k o = (observed q context n).deliverStep k o := by
  simp only [observed, h]
  rfl

/-- There is nothing to observe as long as the promise is left alone. -/
theorem abreast_observed {R : Pairing} (hplain : R.label = .plain) {q : PromiseId}
    (hq : q.index < R.fence.promises) (context : Context) (fuel : Nat) :
    Abreast R (engine context fuel) (observed q context fuel) := by
  induction fuel with
  | zero => exact abreast_exhausted R context
  | succ n ih =>
    rw [engine_succ]
    refine ⟨ih.context, fun e _ => ih.evalStep e, fun w _ => ih.proceedStep w,
      fun frame v _ => ih.resumeStep_plain hplain frame v, fun k k' o m m' hrel hm hk => ?_⟩
    have hquiet : starts q k' o = false := by rw [starts_of_rel q hrel, hk.not_starts hq]
    rw [observed_deliver q context n hquiet]
    exact ih.deliverStep k k' o m m' hrel hm hk

/-! ## Twins -/

/-- The second machine has so many log entries more, and is the same otherwise. -/
structure Twin (d : Nat) (m m' : Machine) : Prop where
  same : m' = m.withLog m'.rest.log
  surplus : m'.rest.log.length = m.rest.log.length + d

/-- A pairing of runs that go on from twins, where everything there is so far is old. -/
def Pairing.from (m m' : Machine) : Pairing := ⟨.plain, m.store.fence, (m.rest.log, m'.rest.log)⟩

/-- Machines that are alike differ by their logs, if nothing has been relabelled. -/
theorem Alike.eq_withLog {R : Pairing} {m m' : Machine} (h : Alike R m m') (hplain : R.label = .plain) :
    m' = m.withLog m'.rest.log := by
  have hstore : m'.store = m.store := h.store.eq fun _ _ hr => hr.eq_of_plain hplain
  have hfunctions : m'.rest.functions = m.rest.functions := by
    have hsame : Function.relabel Labelling.plain = id := funext Function.relabel_plain
    rw [h.functions, hplain, hsame, Array.map_id]
  obtain ⟨-, -, henv, -, hmodules, hheld, hinterrupted, hqueue, -, -⟩ := h
  obtain ⟨store', env', functions', modules', held', interrupted', queue', log'⟩ := m'
  cases hstore
  cases henv
  cases hfunctions
  cases hmodules
  cases hheld
  cases hinterrupted
  cases hqueue
  rfl

namespace Twin

variable {d : Nat} {m m' m₁ m₁' : Machine} (h : Twin d m m')
include h

theorem store : m'.store = m.store := by rw [h.same]; rfl

theorem queue : m'.rest.queue = m.rest.queue := by rw [h.same]; rfl

theorem withStore (s : Store Handler) : Twin d (m.withStore s) (m'.withStore s) := by
  refine ⟨?_, h.surplus⟩
  rw [h.same]
  rfl

theorem withQueue (queue : List Task) : Twin d (m.withQueue queue) (m'.withQueue queue) := by
  refine ⟨?_, h.surplus⟩
  rw [h.same]
  rfl

/-- One more entry on the one side. -/
theorem note (entry : LogEntry) : Twin (d + 1) m (m'.withLog (entry :: m'.rest.log)) := by
  refine ⟨?_, ?_⟩
  · rw [h.same]
    rfl
  · change m'.rest.log.length + 1 = _
    rw [h.surplus, Nat.add_assoc]

theorem alike : Alike (.from m m') m m' := by
  obtain ⟨log, rfl⟩ : ∃ log, m' = m.withLog log := ⟨_, h.same⟩
  have hsame : Function.relabel Labelling.plain = id := funext Function.relabel_plain
  refine ⟨m.store.fenced_fence, .refl (Rewriting.rewrites_plain rfl) _, rfl, ?_, rfl, rfl, rfl, rfl,
    ⟨[], rfl, rfl⟩, fun _ => False.elim⟩
  change _ = m.rest.functions.map (Function.relabel .plain)
  rw [hsame, Array.map_id]
  rfl

/-- Runs that go on side by side from twins end in twins. -/
theorem after (hr : After (.from m m') m m₁ m₁') : Twin d m₁ m₁' := by
  obtain ⟨entries, hlog, hlog'⟩ := hr.alike.logged
  refine ⟨hr.alike.eq_withLog rfl, ?_⟩
  have hsurplus := h.surplus
  change m₁.rest.log = entries ++ m.rest.log at hlog
  change m₁'.rest.log = entries ++ m'.rest.log at hlog'
  rw [hlog, hlog', List.length_append, List.length_append]
  omega

end Twin

/-- Two runs end alike: in twins, the first of which satisfies `P` with the number of starts there have
been, or both cut short. -/
inductive Tally {α : Type} (P : Nat → Machine → Prop) :
    EStateM.Result Abort Machine α → EStateM.Result Abort Machine α → Prop
  | ok (a : α) {d : Nat} {m m' : Machine} (h : P d m) (twin : Twin d m m') : Tally P (.ok a m) (.ok a m')
  | error (e : Abort) {m m' : Machine} : Tally P (.error e m) (.error e m')

namespace Tally

variable {α β : Type} {P Q : Nat → Machine → Prop} {m m' : Machine}
  {r r' : EStateM.Result Abort Machine α}

theorem bind {x y : EvalM α} {f g : α → EvalM β} (hx : Tally P (x m) (y m'))
    (hf : ∀ a d m₁ m₁', x m = .ok a m₁ → P d m₁ → Twin d m₁ m₁' → Tally Q (f a m₁) (g a m₁')) :
    Tally Q ((x >>= f) m) ((y >>= g) m') := by
  change Tally Q (EStateM.bind x f m) (EStateM.bind y g m')
  unfold EStateM.bind
  generalize hr : x m = r, y m' = r' at hx
  cases hx with
  | ok a h twin => exact hf a _ _ _ hr h twin
  | error e => exact .error e

theorem mono (h : Tally P r r') (hPQ : ∀ d m, P d m → Q d m) : Tally Q r r' := by
  cases h with
  | ok a h twin => exact .ok a (hPQ _ _ h) twin
  | error e => exact .error e

theorem of_ok {a : α} (h : Tally P (.ok a m) r') : ∃ d m', r' = .ok a m' ∧ P d m ∧ Twin d m m' := by
  cases h with
  | ok _ hP twin => exact ⟨_, _, rfl, hP, twin⟩

/-- Runs side by side from twins, in which nothing is started. -/
theorem of_agree {d : Nat} (htwin : Twin d m m') (hr : Agree (After (.from m m') m) r r')
    (hP : ∀ a m₁ m₁', r = .ok a m₁ → After (.from m m') m m₁ m₁' → P d m₁) : Tally P r r' := by
  cases hr with
  | ok a h => exact .ok a (hP a _ _ rfl h) (htwin.after h)
  | error e h => exact .error e

end Tally

end Deferral
