import Deferral.Proofs.Eval.Derived
import Deferral.Proofs.Eval.Selection
import Deferral.Proofs.Session.Alongside

/-!
# What is left to a promise is taken up once

The handler behind a promise is run at most once, whatever a host does, and wherever in a run the
promise was made. `counted q` is the engine with one more entry in the log for each time the handler
behind `q` is run. It runs in tandem with the engine, and what has been counted, together with what
still waits or is in flight, is at most one (`Once`). So whatever a session comes to, the log is at most
one entry longer (`Session.counted_once`).

With the course of a selection this gives what can happen in the whole of it (`selection_in_order`).
-/

set_option autoImplicit false

namespace Deferral

/-! ## Counting -/

/-- Whether a continuation is the handler behind a promise. -/
def Continuation.isBehind (q : PromiseId) : Continuation Handler → Bool
  | .derive target _ => target == q
  | _ => false

/-- The engine, with an entry in the log for each time the handler behind a promise is run. -/
def counted (q : PromiseId) (context : Context) : Nat → Engine
  | 0 => .exhausted context
  | n + 1 =>
    { (counted q context n).step with
      deliver := fun k o => do
        if k.isBehind q then EvalM.log (.outcome "run" (.ok .unit))
        (counted q context n).deliverStep k o }

theorem counted_context (q : PromiseId) (context : Context) (n : Nat) :
    (counted q context n).context = context := by
  induction n with
  | zero => rfl
  | succ n ih => exact ih

/-- How often the handler behind a promise has been run, and can still be run. -/
structure Once (q : PromiseId) (F : InFlight) (d : Nat) (s : Store Handler) : Prop where
  most : d + (held (Continuation.isBehind q) F s).card ≤ 1
  made : ¬s.Has q → d + (held (Continuation.isBehind q) F s).card = 0

section

variable {q p : PromiseId} {F G : InFlight} {d : Nat} {s s' : Store Handler}
  {k : Continuation Handler}

theorem held_le_add (kind : Continuation Handler → Bool) : held kind F s ≤ held kind (G + F) s := by
  rw [held, held, add_left_comm]
  exact Multiset.filter_le_filter _ (Multiset.le_add_left _ _)

namespace Once

/-- Nothing that counts has changed, or less is left. -/
theorem mono (h : Once q F d s)
    (hle : held (Continuation.isBehind q) G s' ≤ held (Continuation.isBehind q) F s)
    (hhas : s.Has q → s'.Has q) : Once q G d s' := by
  have hcard := Multiset.card_le_card hle
  have hmost := h.most
  refine ⟨by omega, fun hnot => ?_⟩
  have hmade := h.made fun hq => hnot (hhas hq)
  omega

/-- A promise that is made comes with its handler. -/
theorem derived (h : Once q F d s) (p : PromiseId) (handler : Handler) :
    Once q ((p, .derive s.fresh.1 handler) ::ₘ F) d s.fresh.2 := by
  have hwaits : held (Continuation.isBehind q) F s.fresh.2 = held (Continuation.isBehind q) F s :=
    held_congr (Store.waits_fresh s)
  by_cases hq : s.fresh.1 = q
  · subst hq
    have hnone := h.made s.not_has_fresh
    have hbehind : (Continuation.derive s.fresh.1 handler).isBehind s.fresh.1 = true :=
      beq_self_eq_true _
    refine ⟨?_, fun hnot => absurd (Store.has_fresh.2 (.inr rfl)) hnot⟩
    rw [held_cons_of_true hbehind, hwaits, Multiset.card_cons]
    omega
  · have hbehind : (Continuation.derive s.fresh.1 handler).isBehind q = false := beq_false_of_ne hq
    refine h.mono ?_ fun hhas => Store.has_fresh.2 (.inl hhas)
    rw [held_cons_of_false hbehind, hwaits]

/-- The handler is run. -/
theorem run (h : Once q ((p, k) ::ₘ F) d s) (hk : k.isBehind q = true) : Once q F (d + 1) s := by
  obtain ⟨hmost, hmade⟩ := h
  rw [held_cons_of_true hk, Multiset.card_cons] at hmost hmade
  refine ⟨by omega, fun hnot => ?_⟩
  have := hmade hnot
  omega

theorem drop (h : Once q ((p, k) ::ₘ F) d s) : Once q F d s :=
  h.mono (held_le_add (G := {(p, k)}) _) id

end Once

end

/-! ## The bond -/

/-- Anything goes. -/
def Terms.any : Terms := ⟨fun _ => True, fun _ => True, fun _ => True, True⟩

theorem Unmatched.fine_any (u : Unmatched) : u.Fine .any := by
  cases u <;> trivial

theorem Work.fine_any (w : Work) : w.Fine .any := by
  cases w with
  | letIn bindings body => exact ⟨fun _ _ => trivial, trivial⟩
  | block steps => exact fun _ _ => trivial
  | yield v => trivial
  | select value arms unmatched => exact ⟨fun _ _ => trivial, unmatched.fine_any⟩

theorem Trial.fine_any (trial : Trial) : trial.Fine .any :=
  ⟨fun _ _ => trivial, trial.next.fine_any⟩

theorem Frame.fine_any (frame : Frame) : frame.Fine .any := by
  cases frame with
  | branch onTrue onFalse => exact ⟨trivial, trivial⟩
  | andThen next => exact next.fine_any
  | bindKeys value pattern next => exact ⟨fun _ _ => trivial, next.fine_any⟩
  | bindRetry value pattern keys next => exact ⟨fun _ _ => trivial, next.fine_any⟩
  | bindGuard value guards next => exact ⟨fun _ _ => trivial, next.fine_any⟩
  | armKeys trial => exact trial.fine_any
  | armRetry trial keys => exact trial.fine_any
  | armGuard trial bindings guards => exact ⟨trial.fine_any, fun _ _ => trivial⟩
  | alternative trial bindings body others =>
    exact ⟨trial.fine_any, trivial, fun _ _ => trivial⟩
  | _ => trivial

theorem Continuation.fine_any (k : Continuation Handler) : k.Fine .any := by
  have hhandler : ∀ h : Handler, h.Fine .any := by
    intro h
    cases h with
    | resume frame env => exact ⟨frame.fine_any, trivial⟩
    | recover arms env => exact ⟨fun _ _ => trivial, trivial⟩
    | _ => trivial
  cases k with
  | derive target h => exact hhandler h
  | notify h => exact hhandler h
  | _ => trivial

/-- Twins that differ in the number of times that the handler behind a promise has been run. -/
def Bond.once (q : PromiseId) : Bond where
  toTerms := .any
  Paired F m m' := ∃ d, Twin d m m' ∧ Once q F d m.store
  Given _ := True
  Breach _ := False

/-- The same change on both sides, beside the log. -/
theorem Twin.withRest {d : Nat} {m m' : Machine} (h : Twin d m m') {f : Surroundings → Surroundings}
    (hf : ∀ rest log, f { rest with log } = { f rest with log }) :
    Twin d { m with rest := f m.rest } { m' with rest := f m'.rest } := by
  have hlog : ∀ rest, (f rest).log = rest.log := fun rest => by
    have hrest := congrArg Surroundings.log (hf rest rest.log)
    exact hrest
  refine ⟨?_, ?_⟩
  · change World.mk m'.store (f m'.rest) = ⟨m.store, { f m.rest with log := (f m'.rest).log }⟩
    rw [hlog, ← hf, h.same]
    rfl
  · change (f m'.rest).log.length = (f m.rest).log.length + d
    rw [hlog, hlog]
    exact h.surplus

section

variable {q : PromiseId}

theorem Bond.lawful_once : (once q).Lawful where
  same := by
    rintro F m m' ⟨d, twin, -⟩
    exact twin.same
  scope _ := trivial
  callable _ _ _ _ _ := trivial
  outcome _ _ := trivial
  withEnv := by
    rintro F m m' env ⟨d, twin, honce⟩ -
    exact ⟨d, twin.withRest (f := ({ · with env })) fun _ _ => rfl, honce⟩
  withFunction := by
    rintro F m m' f ⟨d, twin, honce⟩ -
    exact ⟨d, twin.withRest (f := fun rest => { rest with functions := rest.functions.push f })
      fun _ _ => rfl, honce⟩
  withModules := by
    rintro F m m' modules ⟨d, twin, honce⟩
    exact ⟨d, twin.withRest (f := ({ · with modules })) fun _ _ => rfl, honce⟩
  interrupt := by
    rintro F m m' ⟨d, twin, honce⟩
    exact ⟨d, twin.withRest (f := ({ · with interrupted := true })) fun _ _ => rfl, honce⟩
  addLog := by
    rintro F m m' entries ⟨d, twin, honce⟩
    refine ⟨d, ⟨?_, ?_⟩, honce⟩
    · rw [twin.same]
      rfl
    · have hsurplus := twin.surplus
      change (entries ++ m'.rest.log).length = (entries ++ m.rest.log).length + d
      rw [List.length_append, List.length_append]
      omega
  parts _ _ _ := trivial
  spawns _ := trivial
  openFrame _ := trivial
  closeFrame _ := trivial
  grow _ _ := trivial
  plain _ := trivial
  raised _ _ _ := trivial
  withStack _ _ := trivial
  given _ := trivial
  uncaught := nofun

theorem Bond.deferring_once : (once q).Deferring where
  toLawful := lawful_once
  fresh := by
    rintro F m m' ⟨d, twin, honce⟩
    refine ⟨d, twin.withStore _, honce.mono ?_ fun h => Store.has_fresh.2 (.inl h)⟩
    exact (held_congr (Store.waits_fresh m.store)).le
  derived := by
    rintro F m m' p h ⟨d, twin, honce⟩ -
    exact ⟨d, twin.withStore _, honce.derived p h⟩
  gathering := by
    rintro F m m' g ⟨d, twin, honce⟩
    exact ⟨d, twin.withStore _, honce.mono (held_congr (Store.waits_addGather g m.store)).le id⟩
  launched := by
    rintro F m m' p k ⟨d, twin, honce⟩ - hk
    have hbehind : k.isBehind q = false := by
      cases k with
      | derive t h => exact absurd rfl (hk t h)
      | _ => rfl
    exact ⟨d, twin, honce.mono (held_cons_of_false hbehind).le id⟩
  registered := by
    rintro F m m' p k ks ⟨d, twin, honce⟩ hp
    refine ⟨d, twin.withStore _, honce.mono ?_ Store.has_setState.2⟩
    by_cases hhas : m.store.Has p
    · exact (held_register hhas hp).le
    · rw [Machine.withStore, Store.setState_of_not_has hhas]
      exact held_le_add (G := {(p, k)}) _

theorem Bond.settling_once : (once q).Settling where
  toDeferring := deferring_once
  forgotten := by
    rintro F G m m' ⟨d, twin, honce⟩
    exact ⟨d, twin, honce.mono (held_le_add _) id⟩
  settled := by
    rintro F m m' t o ks ⟨d, twin, honce⟩ - ht
    exact ⟨d, twin.withStore _, honce.mono (held_settle ht o).le Store.has_setState.2⟩
  recorded := by
    rintro F m m' id place o ⟨d, twin, honce⟩
    exact ⟨d, twin.withStore _, honce.mono (held_congr (Store.waits_record id place o m.store)).le
      Store.has_record.2⟩
  enqueued := by
    rintro F m m' task ⟨d, twin, honce⟩ -
    exact ⟨d, twin.withQueue _, honce⟩
  dequeued := by
    rintro F m m' queue ⟨d, twin, honce⟩ -
    exact ⟨d, twin.withQueue _, honce⟩
  caller _ _ _ := trivial
  value _ := trivial
  error _ := trivial
  unbroken _ := id

theorem Bond.hosted_once : (once q).Hosted where
  toSettling := settling_once
  code _ := trivial
  setModule _ _ := trivial
  resume := by
    rintro F m m' ⟨d, twin, honce⟩
    exact ⟨d, twin.withRest (f := ({ · with interrupted := false })) fun _ _ => rfl, honce⟩
  hold := by
    rintro F m m' held ⟨d, twin, honce⟩
    exact ⟨d, twin.withRest (f := ({ · with held })) fun _ _ => rfl, honce⟩

/-! ## Engines -/

/-- The engine that counts does what the engine does. -/
theorem shadow_counted (q : PromiseId) (context : Context) :
    (Bond.once q).Shadow context (counted q context) where
  settling := Bond.settling_once
  context_eq := counted_context q context
  host _ _ _ _ := trivial
  enters id f args location caller _ := by
    cases bodyEnvironment context.maxCallDepth id f args location caller <;> trivial
  exhausted := rfl
  eval _ _ h := h
  proceed _ _ := rfl
  resume _ _ _ := rfl
  deliver := by
    rintro n F m m' p k o ⟨d, twin, honce⟩
    refine ⟨k.fine_any, ?_⟩
    by_cases hk : k.isBehind q = true
    · refine ⟨_, ⟨d + 1, twin.note (.outcome "run" (.ok .unit)), honce.run hk⟩, ?_⟩
      simp only [counted, hk]
      rfl
    · refine ⟨m', ⟨d, twin, honce.drop⟩, ?_⟩
      simp only [counted, hk]
      rfl

end

/-! ## Sessions -/

namespace Session

/-- The session after some deeds, if engines are made by `make`. -/
def after (make : Context → Nat → Engine) : Session → List Deed → Session
  | s, [] => s
  | s, .command c :: rest => after make (s.runWith (make s.context s.fuel) c).1 rest
  | s, .native name operation arity :: rest =>
    after make { s with machine := defineNative s.machine name operation arity } rest
  | s, .settings context fuel :: rest => after make { s with context, fuel } rest
  | s, .holding held :: rest => after make (s.holding held) rest

theorem Command.fine_once (q : PromiseId) (env : Environment) (c : Command) : c.Fine (.once q) env := by
  cases c with
  | promise name outcome hidden => cases outcome <;> trivial
  | enterCall frame max => exact fun _ _ => trivial
  | _ => trivial

/-- Whatever hosts do, the sessions stay together. -/
theorem Alongside.after_counted {q : PromiseId} (deeds : List Deed) {context : Context} {s s' : Session}
    (h : Alongside (.once q) context s s') :
    ∃ settings, Alongside (.once q) settings (s.after Deferral.engine deeds)
      (s'.after (counted q) deeds) := by
  induction deeds generalizing s s' context with
  | nil => exact ⟨_, h⟩
  | cons deed rest ih =>
    cases deed with
    | command c =>
      obtain ⟨T, hD⟩ := (shadow_counted q s.context).tandem s.fuel
      have hrun := h.runWith Bond.hosted_once T hD (conducted_engine _ _)
        (Command.fine_once q s.environment c)
      have hright : s'.after (counted q) (.command c :: rest) =
          (s'.runWith (counted q s.context s.fuel) c).1.after (counted q) rest := by
        rw [after, h.same]
      rw [after, hright]
      exact ih hrun.sessions
    | native name operation arity => exact ih (h.native Bond.lawful_once name operation arity)
    | settings context fuel => exact ih (h.settings context fuel)
    | holding held => exact ih (h.holding Bond.hosted_once held)

/-- The handler behind a promise is run at most once. -/
theorem counted_once (executor : Executor) (maxCallDepth : Nat) (withPrelude withHost : Bool)
    (deeds : List Deed) (q : PromiseId) :
    ∃ d ≤ 1, Twin d
      ((start executor maxCallDepth withPrelude withHost).after Deferral.engine deeds).machine
      ((start executor maxCallDepth withPrelude withHost).after (counted q) deeds).machine := by
  let s := start executor maxCallDepth withPrelude withHost
  have hnone : held (Continuation.isBehind q) 0 s.machine.store = 0 := by
    rw [store_start]
    rfl
  have hstart : Alongside (.once q) s.context s s := by
    refine ⟨rfl, rfl, 0, ⟨rfl, rfl⟩, ?_, fun _ => ?_⟩
    · rw [hnone]
      exact Nat.zero_le 1
    · rw [hnone]
      rfl
  obtain ⟨_, -, -, d, twin, honce⟩ := hstart.after_counted deeds
  have hmost := honce.most
  exact ⟨d, by omega, twin⟩

end Session

/-! ## Selections -/

/-- A selection, of a case expression or of a handler of errors, evaluates what there is of its arms in
order, and nothing twice, however often it has to wait and whatever happens meanwhile.

First, what the engine does is what the script of the selection says, and if a selection is taken up
again it is what the script of the frame says. Second, what a selection leaves is left to one promise,
and the run ends with that. Third, all the acts of a selection together, from its start through any
number of times that it is taken up again, are in order: the arms one after the other, the keys of an
arm and then its match, the guards inside the pattern up to one that does not hold, the guards of the
alternatives up to one that holds, and then the body; and that is the end of it. Nothing is left out:
unless it is left to a promise or runs out of fuel, a selection ends with a body, with a failure, or
when there is no arm left. Fourth, in any session what is left to a promise is taken up at most once. -/
theorem selection_in_order (context : Context) :
    ((∀ scrutinee arms n, (engine context n).evalKind (.select scrutinee arms) =
        (engine context n).eval scrutinee >>= fun v m =>
          ((Selection.script v .noMatch arms).run context n m).result) ∧
      (∀ e arms n m, (engine context n).recover e arms m =
        match m.directory.triple? m.rest.env.calls e with
        | some triple => ((Selection.script triple (.rethrow e) arms).run context n m).result
        | none => .error .outOfFuel m) ∧
      ∀ frame v n m, (Selection.positionOf frame).isSome →
        (engine context (n + 1)).resume frame v m =
          ((Selection.resuming v frame).run context n m).result) ∧
    (∀ (script : Selection.Script) n m frame, (script.run context n m).left = some frame →
      ∃ k p m₁, (script.run context n m).result =
        (engine context k).whenReady (.promise p) frame m₁) ∧
    (∀ value unmatched arms r, Selection.Course context value unmatched arms r →
      (∃ x, r.Leads (.start arms) x) ∧
      ∀ before e failure after, r.acts = before ++ .evaluates .body e failure :: after →
        after = []) ∧
    ∀ executor maxCallDepth withPrelude withHost deeds q, ∃ d ≤ 1, Twin d
      ((Session.start executor maxCallDepth withPrelude withHost).after engine deeds).machine
      ((Session.start executor maxCallDepth withPrelude withHost).after (counted q) deeds).machine := by
  refine ⟨⟨fun scrutinee arms n => ?_, fun e arms n m => ?_, fun frame v n m h => ?_⟩, ?_, ?_, ?_⟩
  · have hselect : ∀ v, (engine context n).select v arms .noMatch = fun m =>
        ((Selection.script v .noMatch arms).run context n m).result :=
      fun v => funext (Selection.select_eq context v .noMatch arms n)
    simp only [Engine.evalKind, hselect]
  · cases htriple : m.directory.triple? m.rest.env.calls e with
    | none => exact EvalM.bind_of_error (EvalM.written_of_none htriple)
    | some triple =>
      refine (EvalM.bind_of_ok (EvalM.written_of_some htriple)).trans ?_
      exact Selection.select_eq context triple (.rethrow e) arms n m
  · exact Selection.resume_eq context h v n m
  · exact fun script n m frame => Selection.Script.leaves
  · intro value unmatched arms r h
    obtain ⟨x, hx⟩ := h.follows
    refine ⟨⟨x, hx⟩, fun before e failure after hacts => ?_⟩
    exact (hacts ▸ hx.steps).eq_nil_of_body
  · exact Session.counted_once

/-- `x if later -> x`. -/
def patient : Arm := .mk (.guarded (.bind "x") (.identifier "later")) [(none, .identifier "x")]

/-- The guard is a promise at first. When the selection is taken up again, the guard is not evaluated a
second time, and the pattern is not matched a second time. -/
theorem selection_in_order_patient : ∃ r : Selection.Ran,
    Selection.Course Session.expecting.context (.int 1) .noMatch [patient] r ∧
    r.acts = [.fits true, .evaluates .guard (.identifier "later") none, .holds true,
      .evaluates .body (.identifier "x") none] ∧
    r.left = none ∧ ∃ x, r.Leads (.start [patient]) x := by
  have hstart : Selection.Course Session.expecting.context (.int 1) .noMatch [patient] _ :=
    .start 3 Session.expecting.machine
  have hcourse := hstart.resume rfl (.bool true) 3 Session.expecting.machine
  obtain ⟨-, -, horder, -⟩ := selection_in_order Session.expecting.context
  obtain ⟨hleads, -⟩ := horder _ _ _ _ hcourse
  exact ⟨_, hcourse, rfl, rfl, hleads⟩

end Deferral
