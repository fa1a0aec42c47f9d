import Mathlib.Data.List.Permutation
import Deferral.Proofs.Promise.Law

/-!
# Continuations run once and in order

`Orderly before history after` says what can happen to a promise between two of its states. While it is
pending, continuations are registered and none is run. When it is settled, those that have waited are
run one after the other in the order of their registration (`Drains`), each once and on the final
outcome, and all of them before the call that settled the promise is over (`Stage.drained`). A
continuation that comes later is run at once, and while it is run, or while the list is being drained,
more of them may come. A second settlement leaves no trace.

`Lifetime` is what a whole run can do to a promise: one that was there before the run, one that is made
in the course of it, perhaps by a handler deep inside a drain, or one that is never made.
`orderly_history` is the statement for every promise and every routine with any handlers that comes to
its end.
-/

set_option autoImplicit false

namespace Deferral

variable {η σ α : Type}

/-- The continuations are run in order on the outcome. During the run of each of them, more may be
given to the promise, and are run at once. -/
inductive Drains (o : Outcome) : List (Continuation η) → List (Stage η) → Prop
  | nil : Drains o [] []
  | cons {ks : List (Continuation η)} {run : List (Stage η)} (k : Continuation η)
      (late : List (Continuation η)) : Drains o ks run →
      Drains o (k :: ks) (.invoked k o :: (late.map (.answered · o) ++ run))

/-- What can happen to a promise between two of its states. -/
inductive Orderly (before : PromiseState η) (history : List (Stage η)) (after : PromiseState η) : Prop
  | waits (ks new : List (Continuation η)) (hb : before = .pending ks)
      (hh : history = new.map .registered) (ha : after = .pending (ks ++ new))
  | settles (ks new late : List (Continuation η)) (o : Outcome) (run : List (Stage η))
      (hb : before = .pending ks) (hrun : Drains o (ks ++ new) run)
      (hh : history = new.map .registered ++
        .settled o :: (run ++ .drained :: late.map (.answered · o)))
      (ha : after = .ofOutcome o)
  | stays (late : List (Continuation η)) (o : Outcome) (hb : before = .ofOutcome o)
      (hh : history = late.map (.answered · o)) (ha : after = .ofOutcome o)

namespace Orderly

theorem refl (st : PromiseState η) : Orderly st [] st := by
  rcases st.pending_or_ofOutcome with ⟨ks, rfl⟩ | ⟨o, rfl⟩
  · exact .waits ks [] rfl rfl (by rw [List.append_nil])
  · exact .stays [] o rfl rfl rfl

/-- A settled promise stays settled, and answers at once. -/
theorem of_settled {o : Outcome} {h : List (Stage η)} {after : PromiseState η}
    (ho : Orderly (.ofOutcome o) h after) :
    ∃ late : List (Continuation η), h = late.map (.answered · o) ∧ after = .ofOutcome o := by
  cases ho with
  | waits ks new hb => exact absurd hb (PromiseState.ofOutcome_ne_pending o ks)
  | settles ks new late o' run hb => exact absurd hb (PromiseState.ofOutcome_ne_pending o ks)
  | stays late o' hb hh ha =>
    obtain rfl := PromiseState.ofOutcome_injective hb
    exact ⟨late, hh, ha⟩

theorem trans {a b c : PromiseState η} {h g : List (Stage η)} (hab : Orderly a h b)
    (hbc : Orderly b g c) : Orderly a (h ++ g) c := by
  cases hab with
  | waits ks new hb hh ha =>
    subst ha hh
    cases hbc with
    | waits ks' new' hb' hh' ha' =>
      obtain rfl := PromiseState.pending.inj hb'
      refine .waits ks (new ++ new') hb ?_ ?_
      · rw [hh', List.map_append]
      · rw [ha', List.append_assoc]
    | settles ks' new' late o run hb' hrun hh' ha' =>
      obtain rfl := PromiseState.pending.inj hb'
      rw [List.append_assoc] at hrun
      refine .settles ks (new ++ new') late o run hb hrun ?_ ha'
      rw [hh', List.map_append, List.append_assoc]
    | stays late o hb' => exact absurd hb'.symm (PromiseState.ofOutcome_ne_pending o _)
  | settles ks new late o run hb hrun hh ha =>
    subst ha hh
    obtain ⟨late', rfl, rfl⟩ := hbc.of_settled
    refine .settles ks new (late ++ late') o run hb hrun ?_ rfl
    simp only [List.map_append, List.append_assoc, List.cons_append]
  | stays late o hb hh ha =>
    subst ha hh
    obtain ⟨late', rfl, rfl⟩ := hbc.of_settled
    exact .stays (late ++ late') o hb List.map_append.symm rfl

end Orderly

/-- What can happen to a promise between two stores. A promise that is made on the way has its history
from then on. -/
inductive Lifetime (p : PromiseId) (s : Store η) (trace : List (Event η)) (s' : Store η) : Prop
  | older (has : s.Has p) (kept : s'.Has p)
      (orderly : Orderly (s.state p) (Event.history p trace) (s'.state p))
  | made (before after : List (Event η)) (missing : ¬s.Has p) (has : s'.Has p)
      (split : trace = before ++ .made p :: after)
      (orderly : Orderly (.pending []) (Event.history p after) (s'.state p))
  | never (missing : ¬s.Has p) (missing' : ¬s'.Has p)

namespace Lifetime

variable {p : PromiseId} {s s' s'' : Store η} {t u : List (Event η)}

theorem of_has (h : Lifetime p s t s') (hp : s.Has p) :
    s'.Has p ∧ Orderly (s.state p) (Event.history p t) (s'.state p) := by
  cases h with
  | older _ kept orderly => exact ⟨kept, orderly⟩
  | made _ _ missing => exact absurd hp missing
  | never missing => exact absurd hp missing

/-- A promise that nothing happens to. -/
theorem still (hk : s'.Has p ↔ s.Has p) (hs : s'.state p = s.state p)
    (ht : Event.history p t = []) : Lifetime p s t s' := by
  by_cases hp : s.Has p
  · refine .older hp (hk.2 hp) ?_
    rw [ht, hs]
    exact .refl _
  · exact .never hp fun hp' => hp (hk.1 hp')

theorem trans (h : Lifetime p s t s') (h' : Lifetime p s' u s'') : Lifetime p s (t ++ u) s'' := by
  cases h with
  | older has kept orderly =>
    obtain ⟨kept', orderly'⟩ := h'.of_has kept
    refine .older has kept' ?_
    rw [Event.history_append]
    exact orderly.trans orderly'
  | made before after missing has split orderly =>
    obtain ⟨kept', orderly'⟩ := h'.of_has has
    refine .made before (after ++ u) missing kept' ?_ ?_
    · rw [split, List.append_assoc, List.cons_append]
    · rw [Event.history_append]
      exact orderly.trans orderly'
  | never missing missing' =>
    cases h' with
    | older has => exact absurd has missing'
    | made before after _ has split orderly =>
      refine .made (t ++ before) after missing has ?_ orderly
      rw [split, List.append_assoc]
    | never _ missing'' => exact .never missing missing''

end Lifetime

/-! ## The law -/

/-- What a run that comes to its end does to a promise is orderly. -/
def orderlySpec (η : Type) (p : PromiseId) : TraceSpec η where
  Inv _ := True
  Fine _ := True
  Rel b s t s' := b = true → Lifetime p s t s'
  refl _ _ _ := .still Iff.rfl rfl rfl
  trans h h' hb := (h rfl).trans (h' hb)

variable {p q : PromiseId}

/-- A new promise starts to live; the others are left alone. -/
theorem orderly_made (s : Store η) : (orderlySpec η p).Rel true s [.made s.fresh.1] s.fresh.2 := by
  intro _
  by_cases hp : p = s.fresh.1
  · subst hp
    have hstate : s.fresh.2.state s.fresh.1 = .pending [] := by
      rw [Store.state_fresh]
      exact Store.state_of_not_has s.not_has_fresh
    refine .made [] [] s.not_has_fresh (Store.has_fresh.2 (.inr rfl)) rfl ?_
    rw [hstate]
    exact .refl _
  · refine .still ?_ (Store.state_fresh s p) rfl
    rw [Store.has_fresh, or_iff_left hp]

theorem orderly_registered {s : Store η} {ks : List (Continuation η)} (k : Continuation η)
    (hq : s.state q = .pending ks) :
    (orderlySpec η p).Rel true s [.stage q (.registered k)] (s.register q k).2 := by
  rcases Store.register_cases q k s with ⟨ks', hk, hs⟩ | ⟨o, ho, _⟩
  · rw [hs]
    by_cases hqp : q = p
    · subst hqp
      intro _
      by_cases hp : s.Has q
      · refine .older hp (Store.has_setState.2 hp)
          (.waits ks' [k] hk (Event.history_stage_self q _) ?_)
        rw [Store.state_setState_self hp]
      · exact .never hp fun hp' => hp (Store.has_setState.1 hp')
    · exact fun _ => .still Store.has_setState (Store.state_setState_ne (Ne.symm hqp))
        (Event.history_stage_ne hqp _)
  · rw [ho] at hq
    exact absurd hq (PromiseState.ofOutcome_ne_pending o ks)

theorem orderly_answered {s : Store η} {o : Outcome} (k : Continuation η)
    (hq : s.state q = .ofOutcome o) :
    (orderlySpec η p).Rel true s [.stage q (.answered k o)] s := by
  by_cases hqp : q = p
  · subst hqp
    intro _
    by_cases hp : s.Has q
    · exact .older hp hp (.stays [k] o hq (Event.history_stage_self q _) hq)
    · exact .never hp hp
  · exact fun _ => .still Iff.rfl rfl (Event.history_stage_ne hqp _)

section Settling

variable {deliver : Continuation η → Outcome → Recorded η σ Unit}
  (hd : ∀ k o, True → (orderlySpec η p).Obeys (deliver k o))
include hd

theorem orderly_deliverAll_ne (hqp : q ≠ p) (o : Outcome) :
    ∀ ks, (orderlySpec η p).Obeys (Recorded.deliverAll deliver q ks o)
  | [] => TraceSpec.obeys_note fun _ _ _ => .still Iff.rfl rfl (Event.history_stage_ne hqp _)
  | k :: ks =>
    TraceSpec.obeys_bind
      (TraceSpec.obeys_note fun _ _ _ => .still Iff.rfl rfl (Event.history_stage_ne hqp _))
      fun _ => TraceSpec.obeys_bind (hd k o trivial) fun _ => orderly_deliverAll_ne hqp o ks

/-- The continuations of the promise itself are run in order, once it is settled. -/
theorem drains_deliverAll {o : Outcome} : ∀ (ks : List (Continuation η)) {w w' : World η σ},
    w.store.Has p → w.store.state p = .ofOutcome o →
    (Recorded.deliverAll deliver p ks o w).1 = .ok () w' →
    w'.store.Has p ∧ w'.store.state p = .ofOutcome o ∧
      ∃ run, Drains o ks run ∧
        Event.history p (Recorded.deliverAll deliver p ks o w).2 = run ++ [.drained]
  | [], w, w', hp, hs, h => by
    cases h
    exact ⟨hp, hs, [], .nil, Event.history_stage_self p _⟩
  | k :: ks, w, w', hp, hs, h => by
    obtain ⟨-, hr⟩ := hd k o trivial w trivial
    simp only [Recorded.deliverAll, Recorded.note, bind] at h ⊢
    cases hk : deliver k o w with
    | mk r t =>
      rw [hk] at h hr
      cases r with
      | error e w₁ => cases h
      | ok a w₁ =>
        -- the run of `k` sees a settled promise, so it can only add late continuations
        have hlife : Lifetime p w.store t w₁.store := hr rfl
        obtain ⟨hp₁, hstay⟩ := hlife.of_has hp
        rw [hs] at hstay
        obtain ⟨late, hlate, hs₁⟩ := hstay.of_settled
        obtain ⟨hp₂, hs₂, run, hrun, hh⟩ := drains_deliverAll ks hp₁ hs₁ h
        refine ⟨hp₂, hs₂, _, .cons k late hrun, ?_⟩
        rw [Event.history_append, Event.history_append, Event.history_stage_self, hh, hlate,
          List.singleton_append, List.cons_append, List.append_assoc]

/-- Settling a pending promise: the settlement, the drain, and nothing else. -/
theorem orderly_settle_pending {o : Outcome} {ks : List (Continuation η)} {w w' : World η σ}
    (hp : w.store.Has p) (hks : w.store.state p = .pending ks)
    (h : (Recorded.settle deliver p o w).1 = .ok () w') :
    Lifetime p w.store (Recorded.settle deliver p o w).2 w'.store := by
  have hbegin : Recorded.beginSettle p o w =
      (.ok (some ks) { w with store := (w.store.settle p o).2 }, [.stage p (.settled o)]) := by
    simp only [Recorded.beginSettle, hks]
  have hp₁ : (w.store.settle p o).2.Has p := Store.has_settle.2 hp
  have hs₁ : (w.store.settle p o).2.state p = .ofOutcome o := by
    rw [Store.settle_pending hks]
    exact Store.state_setState_self hp
  simp only [Recorded.settle, bind, hbegin] at h ⊢
  obtain ⟨hp', hs', run, hrun, hh⟩ := drains_deliverAll hd ks hp₁ hs₁ h
  refine .older hp hp' (.settles ks [] [] o run hks (by rwa [List.append_nil]) ?_ hs')
  rw [Event.history_append, Event.history_stage_self, hh]
  rfl

theorem orderly_settle (q : PromiseId) (o : Outcome) :
    (orderlySpec η p).Obeys (Recorded.settle deliver q o) := by
  by_cases hqp : q = p
  · subst hqp
    refine fun w _ => ⟨trivial, fun hend => ?_⟩
    rcases (w.store.state q).pending_or_ofOutcome with ⟨ks, hks⟩ | ⟨o', ho'⟩
    · by_cases hp : w.store.Has q
      · cases hr : (Recorded.settle deliver q o w).1 with
        | error e w' =>
          rw [hr] at hend
          cases hend
        | ok a w' => exact orderly_settle_pending hd hp hks hr
      · -- nothing waits for a promise that has not been made, and settling does not make it
        have hempty : Recorded.settle deliver q o w =
            (.ok () { w with store := (w.store.settle q o).2 },
              [.stage q (.settled o), .stage q .drained]) := by
          simp only [Recorded.settle, Recorded.beginSettle, bind, Store.state_of_not_has hp]
          rfl
        rw [hempty]
        exact .never hp fun hp' => hp (Store.has_settle.1 hp')
    · -- a second settlement is ignored
      have hnone : Recorded.settle deliver q o w = (.ok () w, []) := by
        simp only [Recorded.settle, Recorded.beginSettle, bind, ho']
        cases o' <;> rfl
      rw [hnone]
      exact .still Iff.rfl rfl rfl
  · refine TraceSpec.obeys_bind (fun w _ => ⟨trivial, ?_⟩) fun due => ?_
    · unfold Recorded.beginSettle
      split
      · exact fun _ => .still Store.has_settle (Store.state_settle_ne (Ne.symm hqp))
          (Event.history_stage_ne hqp _)
      · exact (orderlySpec η p).refl true w.store
    · cases due with
      | none => exact TraceSpec.obeys_pure ()
      | some ks => exact orderly_deliverAll_ne hd hqp o ks

end Settling

theorem orderlySpec_law (p : PromiseId) : Law (orderlySpec η p) where
  fine_of_state _ _ := trivial
  made _ := ⟨trivial, orderly_made _⟩
  gathering g _ := ⟨trivial, fun _ => .still Iff.rfl (Store.state_addGather g _ p) rfl⟩
  recorded id place _ _ _ :=
    ⟨trivial, fun _ => .still Store.has_record (Store.state_record id place _ _ p) rfl⟩
  handled _ _ _ _ _ := .still Iff.rfl rfl rfl
  registered k _ hq := ⟨trivial, orderly_registered k hq⟩
  answered k _ hq := orderly_answered k hq
  settle hd q o _ := orderly_settle hd q o

/-- For every promise and every run of promise operations that comes to its end, whatever the handlers
do: no continuation of the promise is run while it is pending; once it is settled, the continuations
that waited have been run in the order of their registration, each exactly once and on its final
outcome, before the call that settled it was over; and one that came later has been run at once. -/
theorem orderly_history (handle : η → Outcome → Routine η σ Outcome) (n : Nat) (r : Routine η σ α)
    (w w' : World η σ) (a : α) (p : PromiseId) (h : r.perform handle n w = .ok a w') :
    Lifetime p w.store (r.record handle n w).2 w'.store := by
  obtain ⟨-, hr⟩ := (orderlySpec_law p).record handle n r w trivial
  rw [Routine.record_fst, h] at hr
  exact hr rfl

namespace Reentrant

/-- Handler 0 gives the promise another continuation and tries to settle it again. -/
def handle (h : Nat) (o : Outcome) : Routine Nat Unit Outcome :=
  if h = 0 then .onComplete ⟨0⟩ (.notify 2) (.fulfil ⟨0⟩ (.error .divisionByZero) (.done o))
  else .done o

/-- Two continuations wait when the promise is settled. -/
def routine : Routine Nat Unit Unit :=
  .new fun p =>
    .onComplete p (.notify 0) (.onComplete p (.notify 1) (.fulfil p (.ok .unit) (.done ())))

def before : World Nat Unit := ⟨.empty, ()⟩

def after : World Nat Unit := ⟨⟨#[.fulfilled .unit], #[]⟩, ()⟩

end Reentrant

open Reentrant in
theorem orderly_history_reentrant :
    routine.perform handle 2 before = .ok () after ∧ after.store.Has ⟨0⟩ ∧
      Lifetime ⟨0⟩ before.store (routine.record handle 2 before).2 after.store ∧
      Event.history ⟨0⟩ (routine.record handle 2 before).2 =
        [.registered (.notify 0), .registered (.notify 1), .settled (.ok .unit),
          .invoked (.notify 0) (.ok .unit), .answered (.notify 2) (.ok .unit),
          .invoked (.notify 1) (.ok .unit), .drained] := by
  have hrun : routine.perform handle 2 before = .ok () after := by cbv
  exact ⟨hrun, Nat.zero_lt_one, orderly_history handle 2 routine before after () ⟨0⟩ hrun, by cbv⟩

end Deferral
