import Deferral.Proofs.Eval.Tandem
import Deferral.Proofs.Session.Beside

/-!
# What is put down, and taken up again

What a bond has to be kept through, so that two runs stay together also where promises come in. A
continuation is in flight between the moment when it is taken out of the store and the moment when it
is run; it is also in flight before it is put there. `Bond.Deferring` is about putting continuations
down with pending promises, `Bond.Settling` about giving outcomes to promises and about tasks. The one
thing these laws leave open is what running a continuation that is in flight does (`Lands`); for
one level of that there is `Tandem.deliverStep`.
-/

set_option autoImplicit false

namespace Deferral

/-- What a continuation will run is fine. -/
def Continuation.Fine (K : Terms) : Continuation Handler → Prop
  | .derive _ h => h.Fine K
  | .notify h => h.Fine K
  | _ => True

namespace Bond

/-- The bond is kept when something is put down for later. -/
structure Deferring (B : Bond) : Prop extends B.Lawful where
  fresh : ∀ {F m m'}, B.Paired F m m' →
    B.Paired F (m.withStore m.store.fresh.2) (m'.withStore m.store.fresh.2)
  /-- A new promise is to be settled by a handler. -/
  derived : ∀ {F m m' p h}, B.Paired F m m' → h.Fine B.toTerms →
    B.Paired ((p, .derive m.store.fresh.1 h) ::ₘ F) (m.withStore m.store.fresh.2)
      (m'.withStore m.store.fresh.2)
  gathering : ∀ {F m m'} (g : Gather), B.Paired F m m' →
    B.Paired F (m.withStore (m.store.addGather g).2) (m'.withStore (m.store.addGather g).2)
  launched : ∀ {F m m' p k}, B.Paired F m m' → k.Fine B.toTerms → (∀ t h, k ≠ .derive t h) →
    B.Paired ((p, k) ::ₘ F) m m'
  registered : ∀ {F m m' p k ks}, B.Paired ((p, k) ::ₘ F) m m' → m.store.state p = .pending ks →
    B.Paired F (m.withStore (m.store.setState p (.pending (ks ++ [k]))))
      (m'.withStore (m.store.setState p (.pending (ks ++ [k]))))

/-- The bond is kept when promises are settled and tasks are queued. -/
structure Settling (B : Bond) : Prop extends B.Deferring where
  /-- A run that is cut short leaves behind what was in flight. -/
  forgotten : ∀ {F G m m'}, B.Paired (G + F) m m' → B.Paired F m m'
  settled : ∀ {F m m' t o ks}, B.Paired F m m' → B.Given o → m.store.state t = .pending ks →
    B.Paired (Continuation.awaiting t ks + F) (m.withStore (m.store.setState t (.ofOutcome o)))
      (m'.withStore (m.store.setState t (.ofOutcome o)))
  recorded : ∀ {F m m'} (id : GatherId) (place : Nat) (o : Outcome), B.Paired F m m' →
    B.Paired F (m.withStore (m.store.record id place o).2) (m'.withStore (m.store.record id place o).2)
  enqueued : ∀ {F m m' task}, B.Paired F m m' → B.Scope task.caller →
    B.Paired F (m.withQueue (m.rest.queue ++ [task])) (m'.withQueue (m.rest.queue ++ [task]))
  dequeued : ∀ {F m m' queue}, B.Paired F m m' → (∀ task ∈ queue, task ∈ m.rest.queue) →
    B.Paired F (m.withQueue queue) (m'.withQueue queue)
  caller : ∀ {F m m'}, B.Paired F m m' → ∀ task ∈ m.rest.queue, B.Scope task.caller
  value : ∀ v, B.Given (.ok v)
  error : ∀ {e}, B.Failure e → B.Given (.error e)
  unbroken : ∀ a, ¬B.Breach a

namespace Settling

variable {B : Bond} {F : InFlight} {m m' : Machine} {α : Type} (S : B.Settling)
include S

theorem new_bind {f g : PromiseId → EvalM α} (hf : ∀ p, B.Together (f p) (g p)) :
    B.Together (Promise.new >>= f) (Promise.new >>= g) := by
  intro F m m' h
  rw [Promise.new_bind, Promise.new_bind, S.store h]
  exact hf _ F _ _ (S.fresh h)

/-- What a run fails with. -/
theorem failure_of_meets {e : Error} {r : EStateM.Result Abort Machine α}
    (h : B.Meets F (.error (.error e) m) r) : B.Failure e := by
  cases h with
  | error _ he _ => exact he e rfl
  | breach ha _ => exact absurd ha (S.unbroken _)

/-- A run whose failure is an outcome. -/
theorem outcome_run {x y : EvalM α} (hx : B.Together x y) :
    B.Together (EvalM.outcome x) (EvalM.outcome y) := by
  intro F m m' h
  have hr := hx F m m' h
  unfold EvalM.outcome
  generalize x m = r, y m' = r' at hr
  cases hr with
  | ok a h => exact .ok _ h
  | error e he h =>
    cases e with
    | error e => exact .ok _ h
    | panic payload => exact .error _ nofun h
    | outOfFuel => exact .error _ nofun h
  | breach ha h => exact absurd ha (S.unbroken _)

/-- What becomes of a run is an outcome there can be. -/
theorem given_of_outcome {x y : EvalM Value} (hx : B.Together x y) (h : B.Paired F m m')
    {o : Outcome} {m₁ : Machine} (hr : EvalM.outcome x m = .ok o m₁) : B.Given o := by
  have hmeets := hx F m m' h
  unfold EvalM.outcome at hr
  generalize x m = r, y m' = r' at hmeets hr
  cases hmeets with
  | ok a h =>
    cases hr
    exact S.value a
  | error e he h =>
    cases e with
    | error e =>
      cases hr
      exact S.error (he e rfl)
    | panic payload => cases hr
    | outOfFuel => cases hr
  | breach ha h => exact absurd ha (S.unbroken _)

end Settling

end Bond

/-- A gather gives a tuple, or the failure that was recorded. -/
theorem Store.combined_of_record {s : Store Handler} {id : GatherId} {place : Nat} {o : Outcome}
    {found : PromiseId × Outcome} (h : (s.record id place o).1 = some found) :
    (∃ v, found.2 = .ok v) ∨ found.2 = o := by
  unfold record at h
  split at h
  · cases h
  · obtain ⟨combined, hcombined, rfl⟩ := Option.map_eq_some_iff.1 h
    unfold Gather.record at hcombined
    split at hcombined
    · cases hcombined
    · cases o with
      | ok v =>
        dsimp only at hcombined
        split at hcombined
        · exact .inl ⟨_, (Option.some.inj hcombined).symm⟩
        · cases hcombined
      | error e => exact .inr (Option.some.inj hcombined).symm

/-- Continuations in flight are run together. -/
def Lands (B : Bond) (E E' : Engine) : Prop :=
  ∀ F m m' p k o, B.Paired ((p, k) ::ₘ F) m m' → m.store.outcome? p = some o →
    B.Meets F (E.deliver k o m) (E'.deliver k o m')

namespace Lands

variable {B : Bond} {E E' : Engine} {F : InFlight} {m m' : Machine} {p t : PromiseId} {o : Outcome}
  {k : Continuation Handler} (hD : Lands B E E')
include hD

section

variable (D : B.Deferring)
include D

theorem onComplete (h : B.Paired ((p, k) ::ₘ F) m m') :
    B.Meets F (Promise.onComplete E.deliver p k m) (Promise.onComplete E'.deliver p k m') := by
  rw [Promise.onComplete_apply, Promise.onComplete_apply, D.store h]
  rcases Store.register_cases p k m.store with ⟨ks, hks, hs⟩ | ⟨o, ho, hs⟩
  · rw [hs]
    exact .ok () (D.registered h hks)
  · rw [hs]
    have hsame : m'.withStore m.store = m' := by
      rw [← D.store h]
      rfl
    change B.Meets F (E.deliver k o m) (E'.deliver k o (m'.withStore m.store))
    rw [hsame]
    exact hD F m m' p k o h (Store.outcome?_of_state ho)

theorem derive (p : PromiseId) {h : Handler} (hh : h.Fine B.toTerms) :
    B.Together (Promise.derive E.deliver p h) (Promise.derive E'.deliver p h) := by
  intro F m m' hm
  rw [Promise.derive, Promise.derive, Promise.new_bind, Promise.new_bind, D.store hm]
  exact (onComplete hD D (D.derived hm hh)).bind fun _ m₁ m₁' _ h₁ => .ok _ h₁

theorem watch (id : GatherId) : ∀ awaited : List (Nat × PromiseId),
    B.Together (Promise.watch E.deliver id awaited) (Promise.watch E'.deliver id awaited)
  | [] => .pure ()
  | (i, p) :: rest => by
    intro F m m' h
    have hk : B.Paired ((p, .gather id i) ::ₘ F) m m' := D.launched h trivial nofun
    exact (onComplete hD D hk).bind fun _ m₁ m₁' _ h₁ => watch id rest F m₁ m₁' h₁

/-- The promise for several operands, some of which are not there. -/
theorem all {vs : List Value} (hvs : vs.any Value.isPromise = true) :
    B.Together (Promise.all E.deliver vs) (Promise.all E'.deliver vs) := by
  intro F m m' h
  rw [Promise.all_of_places (Promise.places_ne_nil hvs),
    Promise.all_of_places (Promise.places_ne_nil hvs), Promise.new_bind, Promise.new_bind, D.store h]
  have hfresh := D.fresh h
  let g : Gather := ⟨vs, (Promise.places 0 vs).length, false, m.store.fresh.1⟩
  have hgather := D.gathering g hfresh
  exact (watch hD D (m.store.fresh.2.addGather g).1 (Promise.places 0 vs) F _ _ hgather).bind
    fun _ m₁ m₁' _ h₁ => .ok _ h₁

/-- What an engine has to run together, beside continuations. -/
theorem tandem (context : E'.context = E.context)
    (host : ∀ name args e, (E.context.host name args).answer = .error e → B.Failure e)
    (enters : ∀ id f args location caller, B.Scope caller →
      B.Enters (bodyEnvironment E.context.maxCallDepth id f args location caller))
    (eval : ∀ e, B.Code e → B.Together (E.eval e) (E'.eval e))
    (proceed : ∀ w : Work, w.Fine B.toTerms → B.Together (E.proceed w) (E'.proceed w))
    (resume : ∀ (frame : Frame) v, frame.Fine B.toTerms →
      B.Together (E.resume frame v) (E'.resume frame v)) :
    Tandem B E E' :=
  ⟨D.toLawful, context, host, enters, eval, proceed, resume, fun p _ => derive hD D p,
    fun _ => all hD D⟩

end

section

variable (S : B.Settling) (hE : Conducted E)
include S hE

theorem deliverAll (ks : List (Continuation Handler)) {F : InFlight} {m m' : Machine}
    (h : B.Paired (Continuation.awaiting p ks + F) m m')
    (ho : ks ≠ [] → m.store.outcome? p = some o) :
    B.Meets F (Promise.deliverAll E.deliver ks o m) (Promise.deliverAll E'.deliver ks o m') := by
  induction ks generalizing m m' with
  | nil =>
    have hnone : Continuation.awaiting p ([] : List (Continuation Handler)) + F = F := zero_add F
    exact .ok () (hnone ▸ h)
  | cons k ks ih =>
    have hsplit : Continuation.awaiting p (k :: ks) + F =
        (p, k) ::ₘ (Continuation.awaiting p ks + F) := by
      rw [← Multiset.cons_add]
      rfl
    have ho := ho (List.cons_ne_nil k ks)
    rw [hsplit] at h
    refine (hD _ m m' p k o h ho).chain (fun _ _ => S.forgotten) fun _ m₁ m₁' hr h₁ => ?_
    -- what has been settled stays so while continuations are run
    have hends := (hE.deliver k o m).evolves
    rw [hr] at hends
    exact ih h₁ fun _ => hends.outcome? ho

theorem settle (h : B.Paired F m m') (ho : B.Given o) :
    B.Meets F (Promise.settle E.deliver t o m) (Promise.settle E'.deliver t o m') := by
  rw [Promise.settle_apply, Promise.settle_apply, S.store h]
  rcases Store.settle_cases t o m.store with ⟨ks, hks, hs⟩ | ⟨o', ho', hs⟩
  · rw [hs]
    refine deliverAll hD S hE ks (S.settled h ho hks) fun hne => ?_
    by_cases hhas : m.store.Has t
    · exact Store.outcome?_setState_self hhas o
    · rw [Store.state_of_not_has hhas] at hks
      exact absurd (PromiseState.pending.inj hks).symm hne
  · rw [hs]
    have hsame : m'.withStore m.store = m' := by
      rw [← S.store h]
      rfl
    change B.Meets F (.ok () m) (.ok () (m'.withStore m.store))
    rw [hsame]
    exact .ok () h

/-- Gives an outcome to a promise. -/
theorem fulfil (h : B.Paired F m m') (ho : B.Given o) :
    B.Meets F (Promise.fulfil E.deliver t o m) (Promise.fulfil E'.deliver t o m') := by
  rcases concrete_or_promise o with hconcrete | ⟨s, rfl⟩
  · rw [Promise.fulfil_concrete _ hconcrete, Promise.fulfil_concrete _ hconcrete]
    exact settle hD S hE h ho
  · by_cases hs : s = t
    · subst hs
      rw [Promise.fulfil_self, Promise.fulfil_self]
      exact settle hD S hE h (S.error (S.plain rfl))
    · rw [Promise.fulfil_other _ hs, Promise.fulfil_other _ hs]
      exact onComplete hD S.toDeferring (S.launched h trivial nofun)

theorem fulfils (t : PromiseId) (ho : B.Given o) :
    B.Together (Promise.fulfil E.deliver t o) (Promise.fulfil E'.deliver t o) :=
  fun _ _ _ h => fulfil hD S hE h ho

theorem settled (ho : B.Given o) :
    B.Together (Promise.settled E.deliver o) (Promise.settled E'.deliver o) :=
  S.new_bind fun p => .bind (fulfils hD S hE p ho) fun _ => .pure p

/-- The promise for any operands. -/
theorem all_any (vs : List Value) :
    B.Together (Promise.all E.deliver vs) (Promise.all E'.deliver vs) := by
  by_cases hvs : Promise.places 0 vs = []
  · unfold Promise.all
    rw [hvs]
    exact settled hD S hE (S.value _)
  · refine all hD S.toDeferring (List.any_eq_true.2 ?_)
    obtain ⟨⟨i, p⟩, hmem⟩ := List.exists_mem_of_ne_nil _ hvs
    obtain ⟨l, -, hl⟩ := Promise.mem_places.1 hmem
    exact ⟨.promise p, List.mem_of_getElem? hl, rfl⟩

end

end Lands

/-! ## Handlers and tasks -/

namespace Tandem

open Bond

variable {B : Bond} {E E' : Engine} {F : InFlight} {m m' : Machine} (T : Tandem B E E')
  (S : B.Settling)
include T S

/-- What a handler runs, if it runs anything, is run together, and its answer is an outcome there can
be. -/
theorem handle {h : Handler} (hh : h.Fine B.toTerms) {o : Outcome} (ho : B.Given o)
    (hm : B.Paired F m m') :
    B.Meets F (E.handle h o m) (E'.handle h o m') ∧
      ∀ answer m₁, E.handle h o m = .ok answer m₁ → B.Given answer := by
  -- a handler that runs code and takes what becomes of it
  have hruns : ∀ {x y : EvalM Value}, B.Together x y →
      B.Meets F (EvalM.outcome x m) (EvalM.outcome y m') ∧
        ∀ answer m₁, EvalM.outcome x m = .ok answer m₁ → B.Given answer :=
    fun hx => ⟨S.outcome_run hx F m m' hm, fun _ _ hr => S.given_of_outcome hx hm hr⟩
  -- a handler that passes on what it is given
  have hpasses : ∀ {o : Outcome}, B.Given o → B.Meets F (.ok o m) (.ok o m') ∧
      ∀ answer m₁, (.ok o m : EStateM.Result Abort Machine Outcome) = .ok answer m₁ →
        B.Given answer := by
    intro o ho
    refine ⟨.ok o hm, fun answer m₁ hr => ?_⟩
    cases hr
    exact ho
  cases h with
  | resume frame env =>
    cases o with
    | ok v => exact hruns (.within T.lawful hh.2 (T.resume frame v hh.1))
    | error e => exact hpasses ho
  | compute operation =>
    cases o with
    | ok v =>
      simp only [Engine.handle, T.context]
      exact hruns (T.strict operation v.elements)
    | error e => exact hpasses ho
  | recover arms env =>
    cases o with
    | ok v => exact hpasses ho
    | error e =>
      simp only [Engine.handle]
      split
      · exact hruns (.within T.lawful hh.2 (T.recover (S.given ho) hh.1))
      · exact hpasses ho
  | apply function env =>
    cases o with
    | ok v => exact hruns (.within T.lawful hh (T.callFunction function [v]))
    | error e => exact hpasses ho
  | applyEither function env =>
    have hsame : Engine.eitherArgument m' = Engine.eitherArgument m := by
      funext o
      cases o with
      | ok v => rfl
      | error e => simp only [Engine.eitherArgument, S.directory hm]
    cases hargument : Engine.eitherArgument m o with
    | none =>
      have hleft : E.handle (.applyEither function env) o m = .error .outOfFuel m :=
        EvalM.bind_of_error (EvalM.written_of_none hargument)
      have hright : E'.handle (.applyEither function env) o m' = .error .outOfFuel m' :=
        EvalM.bind_of_error (EvalM.written_of_none (hsame ▸ hargument))
      rw [hleft, hright]
      exact ⟨.error _ (fun _ he => by cases he) hm, fun _ _ hr => by cases hr⟩
    | some argument =>
      have hleft : E.handle (.applyEither function env) o m =
          EvalM.outcome (EvalM.within env (E.callFunction function [argument])) m :=
        EvalM.bind_of_ok (EvalM.written_of_some hargument)
      have hright : E'.handle (.applyEither function env) o m' =
          EvalM.outcome (EvalM.within env (E'.callFunction function [argument])) m' :=
        EvalM.bind_of_ok (EvalM.written_of_some (hsame ▸ hargument))
      rw [hleft, hright]
      exact hruns (.within T.lawful hh (T.callFunction function [argument]))
  | report label =>
    have hnoted : ∀ look : Machine → Except (ErrorReport Snapshot) Snapshot,
        (∀ F m m', B.Paired F m m' → look m' = look m) →
        B.Together (EvalM.gets look >>= fun shown => do
            EvalM.log (.outcome label shown)
            return o)
          (EvalM.gets look >>= fun shown => do
            EvalM.log (.outcome label shown)
            return o) :=
      fun look hlook => .bind (.gets hlook) fun _ => .bind (.log T.lawful _) fun _ => .pure o
    refine ⟨hnoted _ (fun _ _ _ h => ?_) F m m' hm, fun answer m₁ hr => ?_⟩
    · cases o <;> simp only [S.directory h]
    · cases hr
      exact ho

variable (hD : Lands B E E') (hE : Conducted E)
include hD hE

/-- Running a continuation that is no longer in flight. -/
theorem deliverStep {k : Continuation Handler} (hk : k.Fine B.toTerms) {o : Outcome} (ho : B.Given o)
    (hm : B.Paired F m m') : B.Meets F (E.deliverStep k o m) (E'.deliverStep k o m') := by
  cases k with
  | adopt t => exact hD.fulfil S hE hm ho
  | derive t h =>
    obtain ⟨hmeets, hanswer⟩ := handle T S hk ho hm
    exact hmeets.bind fun answer m₁ m₁' hr h₁ => hD.fulfil S hE h₁ (hanswer answer m₁ hr)
  | gather id place =>
    have hstep := S.recorded id place o hm
    have hright : (m'.store.record id place o) = m.store.record id place o := by rw [S.store hm]
    rw [Engine.deliverStep, Engine.deliverStep]
    cases hfound : (m.store.record id place o).1 with
    | none =>
      rw [Promise.deliverStep_gather_none _ _ hfound,
        Promise.deliverStep_gather_none _ _ (by rw [hright, hfound]), hright]
      exact .ok () hstep
    | some found =>
      obtain ⟨t, combined⟩ := found
      have hcombined : B.Given combined := by
        rcases Store.combined_of_record hfound with ⟨v, hv⟩ | hsame
        · obtain rfl : combined = .ok v := hv
          exact S.value v
        · obtain rfl : combined = o := hsame
          exact ho
      rw [Promise.deliverStep_gather_some _ _ hfound,
        Promise.deliverStep_gather_some _ _ (by rw [hright, hfound]), hright]
      exact hD.fulfil S hE hstep hcombined
  | notify h => exact (handle T S hk ho hm).1.bind fun _ _ _ _ h₁ => .ok () h₁

theorem runTask (task : Task) (htask : B.Scope task.caller) :
    B.Together (E.runTask task) (E'.runTask task) := by
  intro F m m' h
  have hcall := Together.within T.lawful htask (T.callValue (.function task.function) [] none)
  have hr := hcall F m m' h
  change B.Meets F (EStateM.bind (EvalM.contained (EvalM.within task.caller
    (E.callValue (.function task.function) [] none))) _ m) (EStateM.bind (EvalM.contained
    (EvalM.within task.caller (E'.callValue (.function task.function) [] none))) _ m')
  unfold EStateM.bind EvalM.contained
  generalize EvalM.within task.caller (E.callValue (.function task.function) [] none) m = r,
    EvalM.within task.caller (E'.callValue (.function task.function) [] none) m' = r' at hr
  cases hr with
  | ok v h₁ => exact hD.fulfil S hE h₁ (S.value v)
  | error e he h₁ =>
    cases e with
    | error e => exact hD.fulfil S hE h₁ (S.error (he e rfl))
    | panic payload => exact hD.fulfil S hE h₁ (S.error (S.plain rfl))
    | outOfFuel => exact .error _ nofun h₁
  | breach ha h => exact absurd ha (S.unbroken _)

theorem submit (id : FunctionId) : B.Together (E.submit id) (E'.submit id) := by
  refine .environment T.lawful fun caller hcaller => ?_
  refine S.new_bind fun target => ?_
  have hrun := runTask T S hD hE ⟨id, caller, target⟩ hcaller
  have henqueue : B.Together (Engine.enqueue ⟨id, caller, target⟩)
      (Engine.enqueue ⟨id, caller, target⟩) := by
    intro F m m' h
    have hright : Engine.enqueue ⟨id, caller, target⟩ m' =
        .ok () (m'.withQueue (m.rest.queue ++ [⟨id, caller, target⟩])) := by
      rw [← S.queue h]
      rfl
    rw [hright]
    exact .ok () (S.enqueued h hcaller)
  rw [T.context]
  cases E.context.executor with
  | immediate => exact .bind hrun fun _ => .pure _
  | queued => exact .bind henqueue fun _ => .pure _
  | refusing => exact .bind (hD.fulfils S hE target (S.error (S.plain rfl))) fun _ => .pure _
  | deciding atOnce =>
    dsimp only
    split
    · exact .bind hrun fun _ => .pure _
    · exact .bind henqueue fun _ => .pure _

/-- Running tasks that wait. -/
theorem drain (fromBack : Bool) (limit count : Nat) :
    B.Together (Session.drain E fromBack limit count) (Session.drain E' fromBack limit count) := by
  induction limit generalizing count with
  | zero => exact .pure count
  | succ limit ih =>
    intro F m m' h
    have htaken : Session.takeTask fromBack m'.rest.queue = Session.takeTask fromBack m.rest.queue :=
      by rw [S.queue h]
    simp only [Session.drain, EvalM.gets, Bind.bind, EStateM.bind, htaken]
    cases hfound : Session.takeTask fromBack m.rest.queue with
    | none => exact .ok count h
    | some taken =>
      obtain ⟨task, rest⟩ := taken
      obtain ⟨htask, hrest⟩ := Session.mem_of_takeTask hfound
      have hrun := runTask T S hD hE task (S.caller h task htask) F _ _ (S.dequeued h hrest)
      exact hrun.bind fun _ m₁ m₁' _ h₁ => ih (count + 1) F m₁ m₁' h₁

end Tandem

/-! ## Engines with any fuel -/

/-- Engines, one for each amount of fuel, that do what the engine does at each level, but for changes
around evaluations and before continuations that the bond allows. -/
structure Bond.Shadow (B : Bond) (context : Context) (E' : Nat → Engine) : Prop where
  settling : B.Settling
  context_eq : ∀ n, (E' n).context = context
  host : ∀ name args e, (context.host name args).answer = .error e → B.Failure e
  enters : ∀ id f args location caller, B.Scope caller →
    B.Enters (bodyEnvironment context.maxCallDepth id f args location caller)
  exhausted : E' 0 = .exhausted context
  eval : ∀ n e, B.Together ((engine context n).evalStep e) ((E' n).evalStep e) →
    B.Together ((engine context n).evalStep e) ((E' (n + 1)).eval e)
  proceed : ∀ n w, (E' (n + 1)).proceed w = (E' n).proceedStep w
  resume : ∀ n frame v, (E' (n + 1)).resume frame v = (E' n).resumeStep frame v
  /-- A continuation is not in flight any more when it is run. -/
  deliver : ∀ n {F m m' p k} (o : Outcome), B.Paired ((p, k) ::ₘ F) m m' → k.Fine B.toTerms ∧
    ∃ m₁, B.Paired F m m₁ ∧ (E' (n + 1)).deliver k o m' = (E' n).deliverStep k o m₁

namespace Bond.Shadow

variable {B : Bond} {context : Context} {E' : Nat → Engine} (H : B.Shadow context E')
include H

theorem tandem_of_lands {n : Nat} (hD : Lands B (engine context n) (E' n))
    (eval : ∀ e, B.Code e → B.Together ((engine context n).eval e) ((E' n).eval e))
    (proceed : ∀ w : Work, w.Fine B.toTerms →
      B.Together ((engine context n).proceed w) ((E' n).proceed w))
    (resume : ∀ (frame : Frame) v, frame.Fine B.toTerms →
      B.Together ((engine context n).resume frame v) ((E' n).resume frame v)) :
    Tandem B (engine context n) (E' n) := by
  refine hD.tandem H.settling.toDeferring ?_ ?_ ?_ eval proceed resume
  · rw [H.context_eq, engine_context]
  · rw [engine_context]
    exact H.host
  · rw [engine_context]
    exact H.enters

/-- They stay together with the engine, also where continuations are run. -/
theorem tandem (n : Nat) :
    Tandem B (engine context n) (E' n) ∧ Lands B (engine context n) (E' n) := by
  have S := H.settling
  induction n with
  | zero =>
    have hD : Lands B (engine context 0) (E' 0) := by
      intro F m m' p k o hm _
      rw [H.exhausted]
      exact .error .outOfFuel nofun (S.forgotten (G := {(p, k)}) hm)
    refine ⟨H.tandem_of_lands hD ?_ ?_ ?_, hD⟩ <;> rw [H.exhausted]
    · exact fun _ _ => .outOfFuel
    · exact fun _ _ => .outOfFuel
    · exact fun _ _ _ => .outOfFuel
  | succ n ih =>
    obtain ⟨T, hD⟩ := ih
    have hE := conducted_engine context n
    have hD' : Lands B (engine context (n + 1)) (E' (n + 1)) := by
      intro F m m' p k o hm ho
      obtain ⟨hk, m₁, hm₁, hright⟩ := H.deliver n o hm
      rw [hright]
      exact T.deliverStep S hD hE hk (S.outcome hm ho) hm₁
    refine ⟨H.tandem_of_lands hD' (fun e he => H.eval n e (T.evalStep he)) (fun w hw => ?_)
      fun frame v hframe => ?_, hD'⟩
    · rw [H.proceed]
      exact T.proceedStep hw
    · rw [H.resume]
      exact T.resumeStep hframe v fun _ => T.spawn (T.submit S hD hE) v

end Bond.Shadow

end Deferral
