import Deferral.Proofs.Eval.Turns
import Deferral.Proofs.Termination.Programs

/-!
# Turns come to their end

Every turn of a host comes to an end: with enough fuel it is done, unless an operation of the host
panics, or the text of a promise is asked for that is inside of itself (`Turn.finishes`). An error is
never what cuts a turn short, because whatever runs code on behalf of a promise keeps the error as an
outcome (`Unfailing`). So what a protocol says of the time between two turns holds throughout, whatever
turns a host takes (`Protocol.throughout`).
-/

set_option autoImplicit false

namespace Deferral

/-! ## Errors are kept -/

/-- The computation is never cut short by an error. -/
def Unfailing {α : Type} (x : EvalM α) : Prop := ∀ m e m', x m ≠ .error (.error e) m'

namespace Unfailing

variable {α β : Type} {x : EvalM α}

theorem pure (a : α) : Unfailing (Pure.pure a : EvalM α) := fun _ _ _ h => by cases h

theorem onStore (step : Store Handler → α × Store Handler) :
    Unfailing (Promise.onStore step : EvalM α) := fun _ _ _ h => by cases h

theorem bind {f : α → EvalM β} (hx : Unfailing x) (hf : ∀ a, Unfailing (f a)) :
    Unfailing (x >>= f) := by
  intro m e m' h
  change EStateM.bind x f m = .error (.error e) m' at h
  unfold EStateM.bind at h
  split at h
  · exact hf _ _ e m' h
  · rename_i hr
    cases h
    exact hx m e _ hr

theorem written (text : Machine → Option α) : Unfailing (EvalM.written text) := by
  intro m e m' h
  unfold EvalM.written at h
  split at h <;> cases h

theorem outcome (x : EvalM α) : Unfailing (EvalM.outcome x) := by
  intro m e m' h
  unfold EvalM.outcome at h
  split at h
  · cases h
  · cases h
  · rename_i hne _
    cases h
    exact hne e rfl

theorem contained (x : EvalM α) : Unfailing (EvalM.contained x) := by
  intro m e m' h
  unfold EvalM.contained at h
  split at h <;> cases h

/-- Handlers keep errors. -/
theorem handle (E : Engine) (handler : Handler) (o : Outcome) : Unfailing (E.handle handler o) := by
  cases handler with
  | recover arms env =>
    cases o with
    | ok v => exact pure _
    | error e =>
      rw [Engine.handle]
      split
      · exact outcome _
      · exact pure _
  | applyEither function env => exact bind (written _) fun _ => outcome _
  | report label =>
    exact bind (fun _ _ _ h => by cases h) fun _ => bind (fun _ _ _ h => by cases h) fun _ => pure _
  | _ =>
    cases o with
    | ok v => exact outcome _
    | error e => exact pure _

theorem composed : Composed @Unfailing where
  pure := pure
  bind := bind
  new := onStore _
  settles _ _ _ := onStore _
  registers _ _ := onStore _
  gathers _ := onStore _
  records _ _ _ := onStore _

theorem deliver (context : Context) (n : Nat) (k : Continuation Handler) (o : Outcome) :
    Unfailing ((engine context n).deliver k o) := by
  induction n generalizing k o with
  | zero => exact fun _ _ _ h => by cases h
  | succ n ih => exact composed.deliverStep ih (handle _) k o

end Unfailing

/-! ## Ends -/

/-- What stops a computation for good: a panic of an operation of the host, or, where some promise is
inside of itself, a text without an end. -/
def Context.Stops (context : Context) (m : Machine) : Abort → Prop
  | .error _ => False
  | .panic payload => context.Panics payload
  | .outOfFuel => Tangled m.store.outcome?

/-- With enough fuel the computation comes to its end, unless it is stopped. -/
def Finishes (context : Context) {α : Type} (x : Nat → EvalM α) (m : Machine) : Prop :=
  ∃ r, Converges (fun n => x n m) r ∧ ((∃ a m', r = .ok a m' ∧ m'.store.Flat) ∨
    ∃ abort m', r = .error abort m' ∧ context.Stops m' abort)

namespace Finishes

variable {context : Context} {α β : Type} {x : Nat → EvalM α} {m : Machine}

theorem ok {a : α} (h : ∀ n, x n m = .ok a m) (hm : m.store.Flat) : Finishes context x m :=
  ⟨_, ⟨0, fun n _ => h n⟩, .inl ⟨a, m, rfl, hm⟩⟩

/-- What can be afforded comes to its end, if errors do not cut it short. -/
theorem of_affords {T : Tariff} {b : Nat} {ρ : Environment → Environment → Prop}
    (h : Affords T x m b) (hx : ∀ n, Conduct context ρ (x n)) (hfails : ∀ n, Unfailing (x n)) :
    Finishes context x m := by
  obtain ⟨r, ⟨N, hr⟩, hconcludes, hspent⟩ := h.concludes hx
  refine ⟨r, ⟨N, hr⟩, ?_⟩
  match r, hr, hconcludes, hspent with
  | .ok a m', _, _, hspent => exact .inl ⟨a, m', rfl, hspent.sane.flat⟩
  | .error (.error e) m', hr, _, _ => exact absurd (hr N (Nat.le_refl N)) (hfails N m e m')
  | .error (.panic payload) m', _, hpanics, _ => exact .inr ⟨_, m', rfl, hpanics⟩
  | .error .outOfFuel m', _, htangled, _ => exact .inr ⟨_, m', rfl, htangled⟩

theorem bind {f : Nat → α → EvalM β} (hx : Finishes context x m)
    (hf : ∀ a m', m'.store.Flat → Finishes context (fun n => f n a) m') :
    Finishes context (fun n => x n >>= f n) m := by
  obtain ⟨_, ⟨N, hr⟩, ⟨a, m', rfl, hm'⟩ | ⟨abort, m', rfl, hstops⟩⟩ := hx
  · obtain ⟨r, ⟨N', hr'⟩, hend⟩ := hf a m' hm'
    refine ⟨r, ⟨max N N', fun n hn => ?_⟩, hend⟩
    exact (EvalM.bind_of_ok (hr n (Nat.le_trans (Nat.le_max_left ..) hn))).trans
      (hr' n (Nat.le_trans (Nat.le_max_right ..) hn))
  · exact ⟨_, ⟨N, fun n hn => EvalM.bind_of_error (hr n hn)⟩, .inr ⟨abort, m', rfl, hstops⟩⟩

/-- The computation goes on from another machine. -/
theorem congr {y : Nat → EvalM α} {m' : Machine} (h : Finishes context x m')
    (hxy : ∀ n, y n m = x n m') : Finishes context y m := by
  obtain ⟨r, ⟨N, hr⟩, hend⟩ := h
  exact ⟨r, ⟨N, fun n hn => (hxy n).trans (hr n hn)⟩, hend⟩

end Finishes

/-! ## Turns -/

section

variable {context : Context} {m : Machine}

/-- Some tariff fits a machine. -/
theorem Machine.exists_tariff (hm : m.store.Flat) (context : Context) (least : Nat) :
    ∃ T : Tariff, T.maxCallDepth = context.maxCallDepth ∧ T.scale = 1 ∧ least ≤ T.code ∧ m.Sane T := by
  obtain ⟨code, hcode, hsane⟩ := Machine.exists_sane hm least
  exact ⟨⟨context.maxCallDepth, code, 1⟩, rfl, rfl, hcode, hsane _ rfl⟩

theorem finishes_fulfil (hm : m.store.Flat) (p : PromiseId) (o : Outcome) :
    Finishes context (fun n => Promise.fulfil (engine context n).deliver p o) m := by
  obtain ⟨T, hlimit, hscale, -, hsane⟩ := Machine.exists_tariff hm context 0
  exact .of_affords ((sustains_engine hlimit (Nat.le_of_eq hscale.symm) _).deliver.fulfil p o m hsane
    rfl (Nat.le_refl _)) (fun n => (HostStep.fulfil p o).conduct n)
    fun n => Unfailing.composed.fulfil (Unfailing.deliver context n) p o

theorem finishes_eval (hm : m.store.Flat) (e : Expr) :
    Finishes context (fun n => EvalM.outcome ((engine context n).eval e)) m := by
  obtain ⟨T, hlimit, hscale, hcode, hsane⟩ := Machine.exists_tariff hm context (sizeOf e)
  have hconduct : ∀ n, Conduct context (· = ·) ((engine context n).eval e) := by
    intro n
    have h := (conducted_engine context n).eval e
    rwa [engine_context] at h
  have hpays := (sustains_engine hlimit (Nat.le_of_eq hscale.symm) _).eval _ e hcode m hsane rfl
    (Nat.le_refl _)
  exact .of_affords hpays.outcome (fun n => .outcome (hconduct n)) fun n => .outcome _

theorem finishes_runTask (hm : m.store.Flat) (task : Task) :
    Finishes context (fun n => (engine context n).runTask task) m := by
  obtain ⟨T, hlimit, hscale, -, hsane⟩ := Machine.exists_tariff hm context 0
  exact .of_affords ((sustains_engine hlimit (Nat.le_of_eq hscale.symm) _).runTask task m hsane rfl
    (Nat.le_refl _)) (fun n => conduct_runTask n task)
    fun n => .bind (.contained _) fun o =>
      Unfailing.composed.fulfil (Unfailing.deliver context n) _ o

theorem finishes_drain (fromBack : Bool) (limit count : Nat) {m : Machine} (hm : m.store.Flat) :
    Finishes context (fun n => Session.drain (engine context n) fromBack limit count) m := by
  induction limit generalizing count m with
  | zero => exact .ok (fun _ => rfl) hm
  | succ limit ih =>
    cases hfound : Session.takeTask fromBack m.rest.queue with
    | none =>
      refine .ok (a := count) (fun n => ?_) hm
      simp only [Session.drain, EvalM.gets, Bind.bind, EStateM.bind, hfound]
      rfl
    | some taken =>
      obtain ⟨task, rest⟩ := taken
      have hrun : Finishes context (fun n => (engine context n).runTask task) (m.withQueue rest) :=
        finishes_runTask (m := m.withQueue rest) hm task
      refine .congr (hrun.bind fun _ m' hm' => ih (count + 1) hm') fun n => ?_
      simp only [Session.drain, EvalM.gets, Bind.bind, EStateM.bind, hfound]
      rfl

/-- Turns behave. -/
theorem Turn.conduct_runAll (context : Context) (n : Nat) (turns : List Turn) :
    Conduct (engine context n).context (· = ·) (Turn.runAll (engine context n) turns) := by
  have hengine := conducted_engine context n
  induction turns with
  | nil => exact .pure ()
  | cons turn rest ih =>
    refine .bind ?_ fun _ => ih
    cases turn with
    | fulfil p o => exact Conduct.composed.fulfil hengine.deliver p o
    | eval e => exact .bind (.outcome (hengine.eval e)) fun _ => .pure ()
    | runTasks count fromBack =>
      exact .bind (Session.conduct_drain hengine fromBack count 0) fun _ => .pure ()

theorem finishes_recover (hm : m.store.Flat) (e : Error) (arms : List Arm) :
    Finishes context (fun n => EvalM.outcome ((engine context n).recover e arms)) m := by
  obtain ⟨T, hlimit, hscale, hcode, hsane⟩ := Machine.exists_tariff hm context (sizeOf arms)
  have hconduct : ∀ n, Conduct context (· = ·) ((engine context n).recover e arms) := by
    intro n
    have h := (conducted_engine context n).recover e arms
    rwa [engine_context] at h
  have hpays := (sustains_engine hlimit (Nat.le_of_eq hscale.symm) _).recover hcode (e := e) m hsane rfl
    (Nat.le_refl _)
  exact .of_affords hpays.outcome (fun n => .outcome (hconduct n)) fun n => .outcome _

theorem Turn.finishes_run (hm : m.store.Flat) (turn : Turn) :
    Finishes context (fun n => turn.run (engine context n)) m := by
  cases turn with
  | fulfil p o => exact finishes_fulfil hm p o
  | eval e => exact (finishes_eval hm e).bind fun _ _ hm' => .ok (fun _ => rfl) hm'
  | runTasks count fromBack =>
    exact (finishes_drain fromBack count 0 hm).bind fun _ _ hm' => .ok (fun _ => rfl) hm'

/-- Turns come to their end, one after the other. -/
theorem Turn.finishes (hm : m.store.Flat) (turns : List Turn) :
    Finishes context (fun n => Turn.runAll (engine context n) turns) m := by
  induction turns generalizing m with
  | nil => exact .ok (fun _ => rfl) hm
  | cons turn rest ih => exact (turn.finishes_run hm).bind fun _ _ hm' => ih hm'

/-- Whatever turns a host takes, other than settling by hand what is in other hands, they come to their
end, and then `P` holds with the number of starts there have been of the handler behind `q`. The second
machine is the one in which starts have been observed so far. -/
def Throughout (context : Context) (q : PromiseId) (own : PromiseId → Prop)
    (P : Nat → Machine → Prop) (m m' : Machine) : Prop :=
  ∀ turns, Turn.Spare own turns →
    Finishes context (fun n => Turn.runAll (engine context n) turns) m ∧
    ∀ fuel m₁, Turn.runAll (engine context fuel) turns m = .ok () m₁ →
      ∃ d m₁', Turn.runAll (observed q context fuel) turns m' = .ok () m₁' ∧ Twin d m₁ m₁' ∧ P d m₁

/-- A protocol holds throughout. -/
theorem Protocol.throughout {q : PromiseId} {P : Protocol context q} (hq : P.Counts)
    {own : PromiseId → Prop} (hown : ∀ p, P.Own p → own p) {Q : Nat → Machine → Prop}
    (hQ : ∀ d m, P.Inv 0 d m → Q d m) {d : Nat} {m' : Machine} (hm : m.store.Flat)
    (hinv : P.Inv 0 d m) (twin : Twin d m m') : Throughout context q own Q m m' := by
  intro turns hspare
  refine ⟨Turn.finishes hm turns, fun fuel m₁ hr => ?_⟩
  have htally := runAll hq (n := fuel) hinv (fun p o hmem hp => hspare p o hmem (hown p hp)) twin
  rw [hr] at htally
  obtain ⟨d₁, m₁', hr', hinv₁, twin₁⟩ := htally.of_ok
  exact ⟨d₁, m₁', hr', twin₁, hQ d₁ m₁ hinv₁⟩

end

end Deferral
