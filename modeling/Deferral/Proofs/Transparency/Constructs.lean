import Deferral.Proofs.Transparency.Simulation

/-!
# The functions of the engine

One lemma for each function of the engine: given an engine that simulates the rules at some fuel, the
function simulates the rules for its kind of job. `Simulates.step` puts them together, and
`simulates_engine` follows by induction on the fuel.
-/

set_option autoImplicit false

namespace Deferral

variable {S : Setting} {G : Plan} {F : List (Continuation Handler)} {m : Machine} {d n τ : Nat}
  {bs : List Binding}

theorem Computes.ne_lambda {context : Context} {fs : Array Function} {e : Expr} {v : Value} {c : Nat}
    (h : Computes context fs d bs (.eval e) v c) (name : Option String) (params : List String)
    (body : Expr) : e ≠ .lambda name params body := by
  rintro rfl
  cases h with
  | strict operands => cases operands

namespace Trial.Rel

variable {R : Value → Value → Prop} {t t' : Trial}

theorem value (h : t.Rel R t') : R t.value t'.value := by
  obtain ⟨h⟩ := h
  exact h

theorem arm (h : t.Rel R t') : t.arm = t'.arm := by
  obtain ⟨h⟩ := h
  rfl

theorem next (h : t.Rel R t') : t.next.Rel R t'.next := by
  obtain ⟨h, arm, later, unmatched⟩ := h
  exact .select h later unmatched

end Trial.Rel

namespace Simulates

variable {E : Engine} (h : Simulates S n E) {v : Value} {c : Nat}
include h

/-! ## Bindings -/

theorem inArm {bindings bindings' : List (String × Value)} {e : Expr}
    (hc : Computes S.context S.functions d (addBindings bs bindings') (.eval e) v c)
    (hb : NamedRel (Stands S G τ) bindings bindings') (hready : Ready S G F m d bs τ)
    (hload : S.load G F m + c ≤ n) : Answers S τ c true (E.evalInArm bindings e) G F m v :=
  ((h.eval hc (hready.openFrame.defineAll hb) hload).defining rfl).inFrame

theorem checkGuards {x x' : Value} {guards : List Expr} {next next' : Work}
    (hc : Computes S.context S.functions d bs (.guards x' guards next') v c)
    (hx : Stands S G τ x x') (hnext : next.Rel (Stands S G τ) next')
    (hready : Ready S G F m d bs τ) (hload : S.load G F m + c ≤ n) :
    Answers S τ c false (E.checkGuards x guards next) G F m v := by
  cases hc with
  | guardsNil hc => exact (h.proceed hc hnext hready hload).unscoped
  | @guardsCons _ _ _ _ _ _ _ _ c₁ c₂ holds hc =>
    refine (h.eval holds hready (by omega)).bind fun hleads hr => ?_
    have hload' := hleads.load
    have hle := hleads.advance.plan
    exact h.await hc hr
      (.bindGuard (hx.mono hle (by omega)) _ (hnext.mono fun hx => hx.mono hle (by omega)))
      (fun _ _ => rfl) (hready.lead hleads (by omega)) (by omega)

theorem bindWith {x x' : Value} {p : Pattern} {ks : List Value} {next next' : Work}
    (hc : Computes S.context S.functions d bs (.bindWith x' p ks next') v c)
    (hx : Stands S G τ x x') (hnext : next.Rel (Stands S G τ) next')
    (hready : Ready S G F m d bs τ)
    (hload : S.load G F m +
      (c + 4 * (x.waits m.store.isPending + scopeWaits m.store.isPending m.rest.env.bindings)) ≤ n) :
    Answers S τ (c + 4 * (x.waits m.store.isPending +
      scopeWaits m.store.isPending m.rest.env.bindings)) false (E.bindWith x p ks next) G F m v := by
  have hretry : ∀ y, Computes S.context S.functions d bs (.resume (.bindRetry x' p ks next') y) v
      (c + 1) := fun _ => .bindRetry hc
  cases hc with
  | bindWith look hmatch hc hv =>
    rcases Pattern.matching_of_matched (hready.boundShows x look)
      (hx.shows hready.good (.inl rfl)) ks hmatch with
      ⟨q, w, hpending, href, hq⟩ | ⟨mt, hmatched, hb, hg⟩
    · exact ((h.deliver.retry hready href hq (hretry w) (.bindRetry hx p ks hnext) hv (fun _ => rfl)
        hload).congr (Engine.bindWith_of_pending hpending)).of_scoped
    · have hbound : NamedRel (Stands S G τ) mt.bindings _ :=
        List.Forall₂.imp (fun _ _ hb => ⟨hb.1, .of_shows hb.2⟩) hb
      rw [← hg] at hc
      have hrun := h.checkGuards hc hx hnext (hready.defineAll hbound) (by
        change S.load G F m + c ≤ n
        omega)
      exact (hrun.defining (Engine.bindWith_of_matched hmatched)).mono (by omega) (Nat.le_refl _)

theorem bind {x x' : Value} {p : Pattern} {next next' : Work}
    (hc : Computes S.context S.functions d bs (.bind x' p next') v c) (hx : Stands S G τ x x')
    (hnext : next.Rel (Stands S G τ) next') (hready : Ready S G F m d bs τ)
    (hload : S.load G F m + c ≤ n) : Answers S τ c false (E.bind x p next) G F m v := by
  cases hc with
  | @bind _ _ _ _ _ _ _ c₁ c₂ keys hc =>
    refine h.whenItems keys hc (.bindKeys hx p hnext) (fun _ _ => rfl) hready hload fun hleads => ?_
    cases hc with
    | await hc =>
      cases hc with
      | bindKeys hc =>
        have hle := hleads.advance.plan
        have hload' := hleads.load
        have hready' := hready.lead hleads (Nat.le_add_right τ c₁)
        have hwaits := hready'.waits_le x
        exact (h.bindWith hc (hx.mono hle (by omega)) (hnext.mono fun hx => hx.mono hle (by omega))
          hready' (by omega)).mono (by omega) (Nat.le_refl _)

theorem evalLet {bindings : List (Pattern × Expr)} {body : Expr}
    (hc : Computes S.context S.functions d bs (.letIn bindings body) v c)
    (hready : Ready S G F m d bs τ) (hload : S.load G F m + c ≤ n) :
    Answers S τ c false (E.evalLet bindings body) G F m v := by
  cases hc with
  | letNil hc => exact (h.eval hc hready hload).unscoped
  | letCons value hc =>
    rw [Engine.evalLet, Engine.bindingValue_of_ne_lambda value.ne_lambda]
    refine (h.eval value hready (by omega)).bind fun hleads hx => ?_
    have hload' := hleads.load
    exact h.bind hc hx (.letIn _ _) (hready.lead hleads (by omega)) (by omega)

theorem evalBlock {steps : List Step}
    (hc : Computes S.context S.functions d bs (.block steps) v c)
    (hready : Ready S G F m d bs τ) (hload : S.load G F m + c ≤ n) :
    Answers S τ c false (E.evalBlock steps) G F m v := by
  cases hc with
  | blockNil => exact .pure hready.good (.itself rfl)
  | blockLast hc => exact (h.eval hc hready hload).unscoped
  | blockRun value hc =>
    refine (h.eval value hready (by omega)).bind fun hleads hx => ?_
    have hload' := hleads.load
    exact h.await hc hx (.andThen (.block _)) (fun _ _ => rfl) (hready.lead hleads (by omega))
      (by omega)
  | blockBindLast value hc =>
    refine (h.eval value hready (by omega)).bind fun hleads hx => ?_
    have hload' := hleads.load
    exact h.bind hc hx (.yield hx) (hready.lead hleads (by omega)) (by omega)
  | blockBind value hc =>
    refine (h.eval value hready (by omega)).bind fun hleads hx => ?_
    have hload' := hleads.load
    exact h.bind hc hx (.block _) (hready.lead hleads (by omega)) (by omega)

/-! ## Selections -/

theorem choose {trial trial' : Trial} {bindings bindings' : List (String × Value)}
    {alternatives : List (Option Expr × Expr)}
    (hc : Computes S.context S.functions d bs (.choose trial' bindings' alternatives) v c)
    (htrial : trial.Rel (Stands S G τ) trial') (hb : NamedRel (Stands S G τ) bindings bindings')
    (hready : Ready S G F m d bs τ) (hload : S.load G F m + c ≤ n) :
    Answers S τ c true (E.choose trial bindings alternatives) G F m v := by
  cases hc with
  | chooseNil hc => exact h.proceed hc htrial.next hready hload
  | chooseBody hc => exact h.inArm hc hb hready hload
  | chooseGuard holds hc =>
    refine (h.inArm holds hb hready (by omega)).bind fun hleads hy => ?_
    have hload' := hleads.load
    have hle := hleads.advance.plan
    exact h.await hc hy
      (.alternative (htrial.mono fun hx => hx.mono hle (by omega))
        (hb.mono fun hx => hx.mono hle (by omega)) _ _)
      (fun _ _ => rfl) (hready.lead hleads (by omega)) (by omega)

theorem checkArmGuards {trial trial' : Trial} {bindings bindings' : List (String × Value)}
    {guards : List Expr}
    (hc : Computes S.context S.functions d bs (.armGuards trial' bindings' guards) v c)
    (htrial : trial.Rel (Stands S G τ) trial') (hb : NamedRel (Stands S G τ) bindings bindings')
    (hready : Ready S G F m d bs τ) (hload : S.load G F m + c ≤ n) :
    Answers S τ c true (E.checkArmGuards trial bindings guards) G F m v := by
  cases hc with
  | armGuardsNil hc =>
    rw [Engine.checkArmGuards, htrial.arm]
    exact h.choose hc htrial hb hready hload
  | armGuardsCons holds hc =>
    refine (h.inArm holds hb hready (by omega)).bind fun hleads hy => ?_
    have hload' := hleads.load
    have hle := hleads.advance.plan
    exact h.await hc hy
      (.armGuard (htrial.mono fun hx => hx.mono hle (by omega))
        (hb.mono fun hx => hx.mono hle (by omega)) _)
      (fun _ _ => rfl) (hready.lead hleads (by omega)) (by omega)

theorem tryArm {trial trial' : Trial} {ks : List Value}
    (hc : Computes S.context S.functions d bs (.tryArm trial' ks) v c)
    (htrial : trial.Rel (Stands S G τ) trial') (hready : Ready S G F m d bs τ)
    (hload : S.load G F m + (c + 4 * (trial.value.waits m.store.isPending +
      scopeWaits m.store.isPending m.rest.env.bindings)) ≤ n) :
    Answers S τ (c + 4 * (trial.value.waits m.store.isPending +
      scopeWaits m.store.isPending m.rest.env.bindings)) true (E.tryArm trial ks) G F m v := by
  have hretry : ∀ y, Computes S.context S.functions d bs (.resume (.armRetry trial' ks) y) v (c + 1) :=
    fun _ => .armRetry hc
  have hx := htrial.value.shows hready.good (.inl rfl)
  cases hc with
  | armMisses look hmisses hc hv =>
    rw [← htrial.arm] at hmisses
    rcases Pattern.matching_of_noMatch (hready.boundShows _ look) hx ks hmisses with
      ⟨q, w, hpending, href, hq⟩ | hmisses'
    · exact (h.deliver.retry hready href hq (hretry w) (.armRetry htrial ks) hv (fun _ => rfl)
        hload).congr (Engine.tryArm_of_pending hpending)
    · exact ((h.proceed hc htrial.next hready (by omega)).congr
        (Engine.tryArm_of_noMatch hmisses')).mono (by omega) (Nat.le_refl _)
  | armMatches look hmatch hc hv =>
    rw [← htrial.arm] at hmatch
    rcases Pattern.matching_of_matched (hready.boundShows _ look) hx ks hmatch with
      ⟨q, w, hpending, href, hq⟩ | ⟨mt, hmatched, hb, hg⟩
    · exact (h.deliver.retry hready href hq (hretry w) (.armRetry htrial ks) hv (fun _ => rfl)
        hload).congr (Engine.tryArm_of_pending hpending)
    · have hbound : NamedRel (Stands S G τ) mt.bindings _ :=
        List.Forall₂.imp (fun _ _ hb => ⟨hb.1, .of_shows hb.2⟩) hb
      rw [← hg] at hc
      exact ((h.checkArmGuards hc htrial hbound hready (by omega)).congr
        (Engine.tryArm_of_matched hmatched)).mono (by omega) (Nat.le_refl _)

theorem select {x x' : Value} {arms : List Arm} {unmatched : Unmatched}
    (hc : Computes S.context S.functions d bs (.select x' arms unmatched) v c)
    (hx : Stands S G τ x x') (hready : Ready S G F m d bs τ) (hload : S.load G F m + c ≤ n) :
    Answers S τ c true (E.select x arms unmatched) G F m v := by
  cases hc with
  | @selectCons _ _ _ _ arm later _ _ c₁ c₂ keys hc =>
    refine h.whenItems keys hc (.armKeys (.mk hx arm later unmatched)) (fun _ _ => rfl) hready hload
      fun hleads => ?_
    cases hc with
    | await hc =>
      cases hc with
      | armKeys hc =>
        have hle := hleads.advance.plan
        have hload' := hleads.load
        have hready' := hready.lead hleads (Nat.le_add_right τ c₁)
        have hwaits := hready'.waits_le x
        exact (h.tryArm hc (.mk (hx.mono hle (by omega)) arm later unmatched) hready'
          (by simp only; omega)).mono (by simp only; omega) (Nat.le_refl _)

/-! ## Calls and tasks -/

theorem callNative {args vs : List Value} {id : FunctionId} {location : Option Location}
    (hc : Computes S.context S.functions d bs (.resume (.call vs location) (.function id)) v c)
    (hargs : List.Forall₂ (Stands S G τ) args vs) (hready : Ready S G F m d bs τ)
    (hload : S.load G F m + c ≤ n + 1) :
    Answers S τ c true (E.callValue (.function id) args location) G F m v := by
  cases hc with
  | @callNative _ _ _ f operation _ _ _ _ found body unlinked isPrelude count gives inert =>
    have hallowed : allows S.functions id = true := by
      rw [allows, found, Option.any_some, Function.isPrelude, body, unlinked]
      exact isPrelude
    have hfunction : m.current? id = some f := (hready.good.knows.current? hallowed).trans found
    have hlength := hargs.length_eq
    obtain ⟨r, G', m', hrun, hleads, hr⟩ :=
      h.deliver.apply h.context hready.good hargs gives inert (by omega)
    refine ⟨r, G', m', [], ?_, hleads.le (by omega), fun _ => rfl, hr.mono (.refl G') (by omega)⟩
    rw [Engine.callValue_of_function hfunction, Engine.invoke_of_native body (hlength.trans count)]
    exact hrun

/-- A task is run, and its promise is given what stands for its value. -/
theorem runTask {task : Task} (hgood : Good S G (.adopt task.target :: F) m)
    (htask : TaskSound S G m task)
    (hload : S.load G (.adopt task.target :: F) m + G.weight task.target ≤ n + 2) :
    ∃ G' m', E.runTask task m = .ok () m' ∧
      Leads S (G.weight task.target) 2 [] G (.adopt task.target :: F) m G' F m' := by
  obtain ⟨function, computes, value, scope, depth, nested, rank, weight⟩ := htask
  rename_i captures bs body d c τ w
  have hready : Ready S G (.adopt task.target :: F)
      (m.withEnv (Engine.thunkEnvironment body captures task.caller)) d bs τ := by
    refine ⟨hgood.withEnv _, scope, .inr ?_, by omega⟩
    have hcalls : (Engine.thunkEnvironment body captures task.caller).callDepth =
        task.caller.callDepth + 1 := rfl
    rw [Machine.env_withEnv, hcalls]
    omega
  obtain ⟨r, G₁, m₁, more, hrun, hleads, -, hr⟩ := h.eval computes hready (by
    change S.load G (.adopt task.target :: F) m + c ≤ n
    omega)
  have hback := hleads.back
  have hload₁ := hback.load
  have hcall : E.callValue (.function task.function) [] none (m.withEnv task.caller) =
      .ok r (m₁.withEnv task.caller) := by
    have hcurrent : (m.withEnv task.caller).current? task.function = some _ :=
      Machine.current?_of_unlinked function rfl
    refine (Engine.callValue_of_function hcurrent).trans (Engine.invoke_of_thunk ?_ hrun)
    rw [h.context, Machine.env_withEnv]
    omega
  obtain ⟨G₂, m₂, hfulfil, hleads₂⟩ := h.deliver.fulfil hback.good (hleads.advance.plan.value value) hr
    (by rw [hleads.advance.plan.rank value]; exact rank) (by omega)
  refine ⟨G₂, m₂, ?_, (hback.trans hleads₂).le (by omega)⟩
  exact (EvalM.bind_of_ok (EvalM.contained_of_ok (EvalM.within_of_ok hcall))).trans hfulfil

theorem submit {id : FunctionId} {captures : List Binding} {body : Expr}
    (hfunction : m.function? id = some ⟨anonymousName, .code [] body, captures, none⟩)
    (hc : Computes S.context S.functions d bs (.eval body) v c) (hv : v.inert S.allows = true)
    (hgood : Good S G F m) (hscope : ScopeStands S G τ captures bs)
    (hdepth : m.rest.env.callDepth + (d + 1) ≤ S.context.maxCallDepth) (hnested : d + 1 ≤ S.nesting)
    (hload : S.load G F m + (c + 2) ≤ n) : Answers S τ (c + 2) true (E.submit id) G F m v := by
  have hlaunch := hgood.leads_launch (k := .adopt m.store.fresh.1) (ρ := τ + c + 1) (w := c + 2) hv rfl
  have hle := hlaunch.advance.plan
  have hself : (G.track m.store.fresh.1 v (τ + c + 1) (c + 2)).value m.store.fresh.1 = some v :=
    Plan.value_track_self
  have hrank : (G.track m.store.fresh.1 v (τ + c + 1) (c + 2)).rank m.store.fresh.1 = τ + c + 1 :=
    Plan.rank_track_self
  have hweight : (G.track m.store.fresh.1 v (τ + c + 1) (c + 2)).weight m.store.fresh.1 = c + 2 :=
    Plan.weight_track_self
  have hload₁ := hlaunch.load
  rw [Plan.load] at hlaunch hload₁
  have htask : TaskSound S (G.track m.store.fresh.1 v (τ + c + 1) (c + 2))
      (m.withStore m.store.fresh.2) ⟨id, m.rest.env, m.store.fresh.1⟩ :=
    .mk hfunction hc hself (hscope.mono hle (Nat.le_refl _)) hdepth hnested
      (by rw [hrank]; omega) (by rw [hweight])
  have hqueue := hlaunch.good.leads_enqueue htask
  obtain ⟨G', m', hrun, hleads⟩ := h.runTask hlaunch.good htask (by
    dsimp only
    rw [hweight]
    omega)
  rw [hweight] at hqueue hleads
  obtain ⟨x, hx, hsubmit⟩ := Engine.submit_cases (by rw [h.context]; exact S.accepts (by omega)) id m
  -- Whether the task is run or queued, its promise is the answer.
  have hdone : ∃ G' m', x (m.withStore m.store.fresh.2) = .ok () m' ∧
      Leads S (c + 2) 1 [] (G.track m.store.fresh.1 v (τ + c + 1) (c + 2))
        (.adopt m.store.fresh.1 :: F) (m.withStore m.store.fresh.2) G' F m' := by
    rcases hx with rfl | rfl
    · exact ⟨G', m', hrun, hleads.le (by omega)⟩
    · exact ⟨_, _, rfl, hqueue⟩
  obtain ⟨G₂, m₂, hx, hleads₂⟩ := hdone
  refine ⟨.promise m.store.fresh.1, G₂, m₂, [], hsubmit.trans (EvalM.bind_of_ok hx),
    (hlaunch.trans hleads₂).le (by omega), fun _ => rfl,
    .promise (hleads₂.advance.plan.value hself) ?_ hv⟩
  rw [hleads₂.advance.plan.rank hself, hrank]
  omega

/-! ## Expressions, work, frames and continuations -/

theorem evalKind {e : Expr} (hc : Computes S.context S.functions d bs (.eval e) v c)
    (hready : Ready S G F m d bs τ) (hload : S.load G F m + c ≤ n + 1) :
    Answers S τ c true (E.evalKind e) G F m v := by
  cases hc with
  | literal inert => exact (Answers.pure hready.good (.itself inert)).mono (by omega) (Nat.le_refl _)
  | identifier found => exact (hready.identifier found).mono (by omega) (Nat.le_refl _)
  | strict operands items gives inert =>
    obtain ⟨xs, G₁, m₁, hitems, hleads₁, hxs⟩ := h.items items hready (by omega)
    have hload₁ := hleads₁.load
    obtain ⟨r, G₂, m₂, hrun, hleads₂, hr⟩ :=
      h.deliver.apply h.context hleads₁.good hxs gives inert (by omega)
    refine ⟨r, G₂, m₂, [], ?_, (hleads₁.trans hleads₂).le (by omega), fun _ => rfl,
      hr.mono (.refl G₂) (by omega)⟩
    rw [Engine.evalKind_of_operands? E operands, EvalM.bind_of_ok hitems]
    exact hrun
  | @connective _ _ op left right _ _ _ _ op_eq hleft hc =>
    have hkind : E.evalKind (.binary op left right) =
        (E.eval left >>= fun l => E.whenReady l (.connectiveLeft op right)) := by
      rcases op_eq with rfl | rfl <;> rfl
    rw [hkind]
    refine ((h.eval hleft hready (by omega)).bind fun hleads hx => ?_).mono (Nat.le_succ _)
      (Nat.le_refl _)
    have hload' := hleads.load
    exact h.await hc hx (.connectiveLeft _ _) (fun _ _ => rfl) (hready.lead hleads (by omega))
      (by omega)
  | branch hcondition hc =>
    refine ((h.eval hcondition hready (by omega)).bind fun hleads hx => ?_).mono (Nat.le_succ _)
      (Nat.le_refl _)
    have hload' := hleads.load
    exact h.await hc hx (.branch _ _) (fun _ _ => rfl) (hready.lead hleads (by omega)) (by omega)
  | evalLet hc =>
    refine (h.evalLet hc hready.openFrame ?_).inFrame.mono (Nat.le_succ _) (Nat.le_refl _)
    exact Nat.le_of_succ_le_succ hload
  | evalBlock hc =>
    refine (h.evalBlock hc hready.openFrame ?_).inFrame.mono (Nat.le_succ _) (Nat.le_refl _)
    exact Nat.le_of_succ_le_succ hload
  | evalSelect hscrutinee hc =>
    refine ((h.eval hscrutinee hready (by omega)).bind fun hleads hx => ?_).mono (Nat.le_succ _)
      (Nat.le_refl _)
    have hload' := hleads.load
    exact h.select hc hx (hready.lead hleads (by omega)) (by omega)
  | @call _ _ _ _ _ _ _ _ c₁ c₂ c₃ function items hc =>
    refine ((h.eval function hready (by omega)).bind (b := c₂ + c₃) fun hleads hf => ?_).mono
      (by omega) (Nat.le_refl _)
    have hload₁ := hleads.load
    have hready₁ := hready.lead hleads (Nat.le_add_right τ c₁)
    obtain ⟨xs, G₂, m₂, hitems, hleads₂, hxs⟩ := h.items items hready₁ (by omega)
    have hload₂ := hleads₂.load
    have hawait := h.await hc (hf.mono hleads₂.advance.plan (Nat.le_add_right _ c₂))
      (.call hxs _) (fun _ _ => rfl) (hready₁.lead hleads₂ (Nat.le_add_right _ c₂)) (by omega)
    exact .after hitems hleads₂ hawait (by omega) (by omega)
  | @spawn _ _ body _ _ hc inert =>
    have hlambda := h.lambda (m := m) body hready.good.quiet (by omega)
    have hleads :=
      hready.good.leads_addFunction ⟨anonymousName, .code [] body, m.rest.env.bindings, none⟩
    have hload' := hleads.load
    have hspawn := h.spawn (m.function?_withFunction_self _) hc inert hleads.good hready.scope
      (hready.depth.resolve_left (Nat.succ_ne_zero _)) hready.nested (by omega)
    exact .after hlambda hleads hspawn (by omega) (by omega)

theorem proceedStep {w w' : Work} (hc : Computes S.context S.functions d bs (.proceed w') v c)
    (hw : w.Rel (Stands S G τ) w') (hready : Ready S G F m d bs τ)
    (hload : S.load G F m + c ≤ n + 1) :
    Answers S τ c w.isScoped (E.proceedStep w) G F m v := by
  cases hc with
  | proceedLet hc =>
    cases hw
    exact (h.evalLet hc hready (by omega)).mono (Nat.le_succ _) (Nat.le_refl _)
  | proceedBlock hc =>
    cases hw
    exact (h.evalBlock hc hready (by omega)).mono (Nat.le_succ _) (Nat.le_refl _)
  | proceedYield =>
    cases hw with
    | yield hx => exact (Answers.pure hready.good hx).mono (by omega) (Nat.le_refl _)
  | proceedSelect hc =>
    cases hw with
    | select hx => exact (h.select hc hx hready (by omega)).mono (Nat.le_succ _) (Nat.le_refl _)

theorem connectiveLeft {op : BinaryOp} {b : Bool} {right : Expr} {y : Value} {c₁ c₂ : Nat}
    (undecided : op = .and ∧ b = true ∨ op = .or ∧ b = false)
    (hright : Computes S.context S.functions d bs (.eval right) y c₁)
    (hc : Computes S.context S.functions d bs (.await y (.connectiveRight op)) v c₂)
    (hready : Ready S G F m d bs τ) (hload : S.load G F m + (c₁ + c₂) ≤ n) :
    Answers S τ (c₁ + c₂) true (E.connectiveLeft op right (.bool b)) G F m v := by
  have hleft : E.connectiveLeft op right (.bool b) =
      (E.eval right >>= fun r => E.whenReady r (.connectiveRight op)) := by
    rcases undecided with ⟨rfl, rfl⟩ | ⟨rfl, rfl⟩ <;> rfl
  rw [hleft]
  refine (h.eval hright hready (by omega)).bind fun hleads hx => ?_
  have hload' := hleads.load
  exact h.await hc hx (.connectiveRight op) (fun _ _ => rfl) (hready.lead hleads (by omega)) (by omega)

theorem resumeStep {frame frame' : Frame} {x : Value}
    (hc : Computes S.context S.functions d bs (.resume frame' x) v c)
    (hframe : frame.Rel (Stands S G τ) frame') (hready : Ready S G F m d bs τ)
    (hload : S.load G F m + (c + 4 * frame.waits m.store.isPending m.rest.env.bindings) ≤ n + 1) :
    Answers S τ (c + 4 * frame.waits m.store.isPending m.rest.env.bindings) frame.isScoped
      (E.resumeStep frame x) G F m v := by
  cases hc with
  | branchTrue hc =>
    cases hframe
    exact (h.eval hc hready (by omega)).mono (by omega) (Nat.le_refl _)
  | branchFalse hc =>
    cases hframe
    exact (h.eval hc hready (by omega)).mono (by omega) (Nat.le_refl _)
  | andFalse =>
    cases hframe
    exact (Answers.pure hready.good (.itself rfl)).mono (by omega) (Nat.le_refl _)
  | orTrue =>
    cases hframe
    exact (Answers.pure hready.good (.itself rfl)).mono (by omega) (Nat.le_refl _)
  | connectiveLeft undecided hright hc =>
    cases hframe
    exact (h.connectiveLeft undecided hright hc hready (by omega)).mono (by omega) (Nat.le_refl _)
  | connectiveRight =>
    cases hframe
    exact (Answers.pure hready.good (.itself rfl)).mono (by omega) (Nat.le_refl _)
  | andThen hc =>
    cases hframe with
    | andThen hnext =>
      exact (h.proceed hc hnext hready (by omega)).unscoped.mono (by omega) (Nat.le_refl _)
  | bindKeys hc =>
    cases hframe with
    | @bindKeys x _ _ _ hx p hnext =>
      have hwaits := hready.waits_le x
      exact (h.bindWith hc hx hnext hready (by omega)).mono (by omega) (Nat.le_refl _)
  | bindRetry hc =>
    cases hframe with
    | bindRetry hx p ks hnext =>
      rw [Frame.waits] at hload ⊢
      exact (h.bindWith hc hx hnext hready (by omega)).mono (by omega) (Nat.le_refl _)
  | bindGuard hc =>
    cases hframe with
    | bindGuard hx guards hnext =>
      exact (h.checkGuards hc hx hnext hready (by omega)).mono (by omega) (Nat.le_refl _)
  | armKeys hc =>
    cases hframe with
    | @armKeys trial _ htrial =>
      have hwaits := hready.waits_le trial.value
      exact (h.tryArm hc htrial hready (by omega)).mono (by omega) (Nat.le_refl _)
  | armRetry hc =>
    cases hframe with
    | armRetry htrial =>
      rw [Frame.waits] at hload ⊢
      exact (h.tryArm hc htrial hready (by omega)).mono (by omega) (Nat.le_refl _)
  | armGuardTrue hc =>
    cases hframe with
    | armGuard htrial hb =>
      exact (h.checkArmGuards hc htrial hb hready (by omega)).mono (by omega) (Nat.le_refl _)
  | armGuardFalse hc =>
    cases hframe with
    | armGuard htrial hb =>
      exact (h.proceed hc htrial.next hready (by omega)).mono (by omega) (Nat.le_refl _)
  | alternativeTrue hc =>
    cases hframe with
    | alternative htrial hb =>
      exact (h.inArm hc hb hready (by omega)).mono (by omega) (Nat.le_refl _)
  | alternativeFalse hc =>
    cases hframe with
    | alternative htrial hb =>
      exact (h.choose hc htrial hb hready (by omega)).mono (by omega) (Nat.le_refl _)
  | callNative found body unlinked isPrelude count gives inert =>
    cases hframe with
    | call hargs =>
      exact (h.callNative (.callNative found body unlinked isPrelude count gives inert) hargs hready
        (by omega)).mono (by omega) (Nat.le_refl _)

theorem deliverStep : Delivers S (n + 1) E.deliverStep where
  run {G F m k v ρ} hgood hsound hv hload := by
    cases hsound with
    | adopt value => exact h.deliver.fulfilItself hgood value hload
    | @resume t frame frame' env bs w d c τ computes value scope same depth nested before rank weight =>
      have hretarget := hgood.leads_retarget (show (Continuation.derive t _).Targets t from rfl)
        (show (Continuation.adopt t).Targets t from rfl)
      have hload₁ := hretarget.load
      rw [Plan.load, Plan.load] at hload₁
      obtain ⟨r, G₁, m₁, more, hrun, hleads, -, hr⟩ := h.resume (m := m.withEnv env) computes same
        ⟨hretarget.good.withEnv env, scope, depth, nested⟩ (by
          change S.load G (.adopt t :: F) m + (c + 4 * frame.waits m.store.isPending env.bindings) ≤ n
          omega)
      have hback := hleads.back
      have hload₂ := hback.load
      change S.load _ _ _ + 0 ≤ S.load G (.adopt t :: F) m +
        (c + 4 * frame.waits m.store.isPending env.bindings) at hload₂
      obtain ⟨G₂, m₂, hfulfil, hleads₂⟩ := h.deliver.fulfil hback.good
        (hleads.advance.plan.value value) hr (by rw [hleads.advance.plan.rank value]; exact rank)
        (by omega)
      have hload₃ := hleads₂.load
      refine ⟨G₂, m₂, ?_, ((hretarget.trans hback).trans hleads₂).le ?_⟩
      · exact (EvalM.bind_of_ok (EvalM.outcome_of_ok (EvalM.within_of_ok hrun))).trans hfulfil
      · change 1 + (c + 4 * frame.waits m.store.isPending env.bindings) + 0 + 0 ≤ _
        rw [Plan.load]
        omega
    | @compute t op vs w tuple gives value rank weight =>
      subst tuple
      have hretarget := hgood.leads_retarget (show (Continuation.derive t _).Targets t from rfl)
        (show (Continuation.adopt t).Targets t from rfl)
      have hload₁ := hretarget.load
      rw [Plan.load, Plan.load] at hload₁
      obtain ⟨G₂, m₂, hfulfil, hleads₂⟩ := h.deliver.fulfilItself hretarget.good value (by omega)
      refine ⟨G₂, m₂, ?_, (hretarget.trans hleads₂).le ?_⟩
      · have hrun : op.run E.context (Value.tuple vs).elements m = .ok w m := by
          rw [h.context]
          exact gives m hgood.knows
        exact (EvalM.bind_of_ok (EvalM.outcome_of_ok hrun)).trans hfulfil
      · rw [Plan.load, Plan.load]
        omega
    | @gather id place r vs gather value operand rank =>
      rcases hgood.leads_record gather operand with ⟨s, hs, hleads⟩ | ⟨s, hs, hleads⟩
      · exact ⟨G, _, EvalM.bind_of_ok (Promise.onStore_of_eq hs), hleads.le (by omega)⟩
      · have hload₁ := hleads.load
        obtain ⟨G₂, m₂, hfulfil, hleads₂⟩ := h.deliver.fulfilItself hleads.good value (by omega)
        exact ⟨G₂, m₂, (EvalM.bind_of_ok (Promise.onStore_of_eq hs)).trans hfulfil,
          hleads.trans hleads₂⟩

/-- One more level of an engine that simulates the rules does so with one more unit of fuel. -/
theorem step : Simulates S (n + 1) E.step where
  context := h.context
  eval hc hready hload :=
    (h.evalKind hc hready hload).congr (Engine.evalStep_of_quiet hready.good.quiet)
  proceed hc hw hready hload := h.proceedStep hc hw hready hload
  resume hc hframe hready hload := h.resumeStep hc hframe hready hload
  lambda body hquiet _ := Engine.evalStep_of_quiet hquiet
  spawn hfunction hc hv hgood hscope hdepth hnested hload :=
    ((h.submit hfunction hc hv hgood hscope hdepth hnested (by omega)).congr
      (Engine.spawn_of_function (Machine.current?_of_unlinked hfunction rfl) rfl)).mono
        (Nat.le_succ _) (Nat.le_refl _)
  deliver := h.deliverStep

end Simulates

/-- There is no job that costs nothing and needs the engine. -/
theorem simulates_exhausted (S : Setting) : Simulates S 0 (.exhausted S.context) where
  context := rfl
  eval hc _ hload := by cases hc <;> omega
  proceed hc _ _ hload := by cases hc <;> omega
  resume hc _ _ hload := by cases hc <;> omega
  lambda _ _ hn := absurd hn (Nat.lt_irrefl 0)
  spawn _ _ _ _ _ _ _ hload := by omega
  deliver := by
    refine ⟨fun _ hsound _ hload => ?_⟩
    have hpos := hsound.load_pos
    rw [Setting.load_cons] at hload
    omega

/-- The engine with a given amount of fuel simulates the rules with as much. -/
theorem simulates_engine (S : Setting) (n : Nat) : Simulates S n (engine S.context n) := by
  induction n with
  | zero => exact simulates_exhausted S
  | succ n ih =>
    rw [engine_succ]
    exact ih.step

end Deferral
