import Deferral.Proofs.Eval.Adoption
import Deferral.Proofs.Renaming.Turns

/-!
# Shadows of promises

A promise that only the larger of two machines has may be made a shadow of one that they share, as long
as nothing has come of it (`Machine.Embeds.retarget`): it adopts that promise (`InLine.adopting`), and
from then on it comes to the same (`Store.Embeds.outcome?_shadow`). What comes to its end in both
machines comes to the same end (`Corresponds.converges`).
-/

set_option autoImplicit false

namespace Deferral

variable {r : Renaming} {X X' : Shadows}

/-- One promise is a shadow, and no other. -/
def Shadows.only (x p : PromiseId) : Shadows := fun y => if y = x then some p else none

theorem Shadows.only_self (x p : PromiseId) : Shadows.only x p x = some p := if_pos rfl

theorem Shadows.eq_of_only {x p y q : PromiseId} (h : Shadows.only x p y = some q) : y = x ∧ q = p := by
  unfold only at h
  split at h
  · exact ⟨by assumption, (Option.some.inj h).symm⟩
  · cases h

theorem Tracks.mono {p : PromiseId} {ks ks' : List (Continuation Handler)} (h : Tracks r X p ks ks')
    (hX : ∀ x, X x = some p → X' x = some p) : Tracks r X' p ks ks' := by
  induction h with
  | nil => exact .nil
  | cons k _ ih => exact .cons k ih
  | adopt hx _ ih => exact .adopt (hX _ hx) ih

namespace Store.Embeds

variable {s s' : Store Handler} (h : s.Embeds r X s')
include h

/-- Shadows of promises that have not been made may as well be shadows of others, or none. -/
theorem retarget (hX : ∀ {x p}, X x = some p → ¬s.Has p) (hX' : ∀ {x p}, X' x = some p → X x ≠ none) :
    s.Embeds r X' s' where
  state p := by
    by_cases hp : s.Has p
    · rcases (h.state p).elim with ⟨o, hs, hs'⟩ | ⟨ks, ks', hs, hs', htracks⟩
      · rw [hs, hs']
        exact .settled o
      · rw [hs, hs']
        exact .pending (htracks.mono fun x hx => absurd hp (hX hx))
    · rw [state_of_not_has hp, state_of_not_has (mt h.has.1 hp)]
      exact .pending .nil
  gathers := h.gathers
  nextPromise := h.nextPromise
  nextGather := h.nextGather
  unshared hx := by
    obtain ⟨p, hp⟩ := Option.ne_none_iff_exists'.1 (hX' hx)
    exact h.unshared hp
  shadow hx := by
    obtain ⟨p, hp⟩ := Option.ne_none_iff_exists'.1 (hX' hx)
    refine (h.shadow hp).imp id fun ⟨o, ho, _⟩ => ?_
    rw [Store.outcome?, state_of_not_has (hX hp)] at ho
    cases ho

/-- What becomes of a promise that is neither shared nor a shadow makes no difference. -/
theorem setUnshared {x : PromiseId} (hx : ∀ p, r.promise p ≠ x) (hX : X x = none)
    (st : PromiseState Handler) : s.Embeds r X (s'.setState x st) where
  state p := by
    rw [state_setState_ne (hx p)]
    exact h.state p
  gathers := h.gathers
  nextPromise k := by
    rw [size_setState]
    exact h.nextPromise k
  nextGather := h.nextGather
  unshared := h.unshared
  shadow {y p} hy := by
    have hne : y ≠ x := by
      rintro rfl
      cases hX.symm.trans hy
    rw [state_setState_ne hne]
    exact h.shadow hy

/-- A shadow waits for its promise. -/
theorem registerShadow {x p : PromiseId} (hx : X x = some p) {ks ks' : List (Continuation Handler)}
    (hs : s.state p = .pending ks) (htracks : Tracks r X p ks ks') :
    s.Embeds r X (s'.setState (r.promise p) (.pending (ks' ++ [.adopt x]))) where
  state q := by
    by_cases hq : q = p
    · subst hq
      rw [hs]
      by_cases hhas : s'.Has (r.promise q)
      · rw [state_setState_self hhas]
        exact .pending (htracks.snoc_adopt hx)
      · rw [state_of_not_has (mt h.has.2 hhas)] at hs
        rw [state_of_not_has (mt has_setState.1 hhas), ← hs]
        exact .pending .nil
    · rw [state_setState_ne (mt r.promise_inj.1 hq)]
      exact h.state q
  gathers := h.gathers
  nextPromise k := by
    rw [size_setState]
    exact h.nextPromise k
  nextGather := h.nextGather
  unshared := h.unshared
  shadow hy := by
    rw [state_setState_ne (h.unshared hy p).symm]
    exact h.shadow hy

/-- A shadow that has adopted its promise has come to what that one has come to. -/
theorem outcome?_shadow {x p : PromiseId} (hx : X x = some p)
    (hholds : Adoption.Holds ⟨r.promise p, x⟩ 0 s') :
    s'.outcome? x = (s.outcome? p).map (Outcome.rename r) := by
  rcases h.shadow hx with hpending | ⟨o, ho, hs⟩
  · have hnone : s'.outcome? x = none := by
      rw [Store.outcome?, hpending]
      rfl
    rcases hholds with ⟨o, ho⟩ | hmem
    · cases hnone.symm.trans ho
    · rw [add_zero] at hmem
      obtain ⟨ks, hks, -⟩ := mem_waits.1 hmem
      rw [hnone, ← h.outcome? p, Store.outcome?, hks]
      rfl
  · rw [ho, outcome?_of_state hs, Option.map_some]

end Store.Embeds

/-- A shadow is made to adopt its promise. -/
theorem InLine.adopting {d d' : Continuation Handler → Outcome → EvalM Unit} (hd : InLine r X d d')
    {x p : PromiseId} (hx : X x = some p) {m m' : Machine} (h : m.Embeds r X m')
    (hflat : m.store.Flat) :
    Corresponds r X id (.ok () m) (Promise.onComplete d' (r.promise p) (.adopt x) m') := by
  rw [Promise.onComplete_apply]
  rcases (h.store.state p).elim with ⟨o, hs, hs'⟩ | ⟨ks, ks', hs, hs', htracks⟩
  · rw [Store.register_settled hs']
    exact hd.adopt hx (hflat p o hs) h (Store.outcome?_of_state hs)
  · rw [Store.register_pending hs']
    exact .ok () (h.withStore (h.store.registerShadow hx hs htracks))

/-! ## Ends -/

/-- If a run comes to its end with a result, and a corresponding one finishes, then that one comes to the
same end. -/
theorem Corresponds.converges {context : Context} {α β : Type} {f : α → β} {x : Nat → EvalM α}
    {y : Nat → EvalM β} {m m' m₁ : Machine} {a : α}
    (hxy : ∀ n, Corresponds r X f (x n m) (y (n + X.lead) m'))
    (hx : Converges (fun n => x n m) (.ok a m₁))
    (hy : Finishes context y m') :
    ∃ m₁', Converges (fun n => y n m') (.ok (f a) m₁') ∧ m₁.Embeds r X m₁' ∧ m₁'.store.Flat := by
  obtain ⟨N, hN⟩ := hx
  obtain ⟨result, ⟨N', hN'⟩, hend⟩ := hy
  have hr := hxy (max N N')
  have hx' : x (max N N') m = .ok a m₁ := hN _ (Nat.le_max_left ..)
  have hy' : y (max N N' + X.lead) m' = result :=
    hN' _ (Nat.le_trans (Nat.le_max_right ..) (Nat.le_add_right _ _))
  rw [hx', hy'] at hr
  cases hr with
  | ok _ h =>
    rcases hend with ⟨_, _, he, hflat⟩ | ⟨_, _, he, _⟩
    · cases he
      exact ⟨_, ⟨N', hN'⟩, h, hflat⟩
    · cases he

/-- Whatever a host lets happen in a machine, other than evaluating something itself, it can let happen
in one that it is embedded in, apart from the environments. -/
theorem Turn.runAll_embedded {context : Context} (hnatural : context.Natural r) {m m' m₁ : Machine}
    {env : Environment} (h : m.Embeds r X (m'.withEnv env)) (hflat : m'.store.Flat) {turns : List Turn}
    (hidle : Turn.Idle turns)
    (hrun : Converges (fun n => Turn.runAll (engine context n) turns m) (.ok () m₁)) :
    ∃ m₁', Converges (fun n => Turn.runAll (engine context n) (turns.map (Turn.rename r)) m')
        (.ok () m₁') ∧ m₁.store.Embeds r X m₁'.store := by
  obtain ⟨m₁', hrun', h₁, -⟩ := Corresponds.converges
    (fun n => Turn.runAll_echoes hnatural n turns m (m'.withEnv env) h) hrun
    (Turn.finishes (m := m'.withEnv env) hflat (turns.map (Turn.rename r)))
  have hidle' : Turn.Idle (turns.map (Turn.rename r)) := by
    intro e he
    obtain ⟨turn, hmem, hturn⟩ := List.mem_map.1 he
    cases turn with
    | eval e' => exact hidle e' hmem
    | _ => cases hturn
  exact ⟨m₁'.withEnv m'.rest.env,
    Scopeless.converges (fun n => Turn.scopeless_runAll context n hidle') hrun', h₁.store⟩

end Deferral
