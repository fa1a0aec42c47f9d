import Deferral.Proofs.Termination.Afford

/-!
# Every construct can be afforded

`Sustains context T c E` says of the engines `E`, one for each amount of fuel, that they run the parts
of a program at the prices of the tariff, as long as the potential of the machine and the price are at
most `c` together. From that, each construct of the language can be afforded at the price of its code,
with something to spare, and so one more level of evaluation sustains `c + 1` (`Sustains.step`). Since
nothing is for free, every `c` is sustained (`sustains_engine`).
-/

set_option autoImplicit false

namespace Deferral

open Outcomes

/-- Whatever does not exceed `c` together with the potential of the machine can be paid for. -/
structure Sustains (context : Context) (T : Tariff) (c : Nat) (E : Nat → Engine) : Prop where
  context_eq : ∀ n, (E n).context = context
  limit : T.maxCallDepth = context.maxCallDepth
  scale : 1 ≤ T.scale
  eval : ∀ (d : Nat) (e : Expr), sizeOf e ≤ T.code →
    Pays T c d (fun n => (E n).eval e) (sizeOf e * T.rate d)
  proceed : ∀ (d : Nat) (w : Work), w.size ≤ T.code →
    Pays T c d (fun n => (E n).proceed w) (w.size * T.rate d)
  resume : ∀ (frame : Frame) (v : Value) (m : Machine), frame.size ≤ T.code → m.Sane T →
    m.potential T + frame.cost T m.store.outcome? m.rest.env ≤ c →
      Affords T (fun n => (E n).resume frame v) m (frame.cost T m.store.outcome? m.rest.env)
  deliver : Delivering T c fun n => (E n).deliver

variable {context : Context} {T : Tariff} {c d : Nat} {E : Nat → Engine}

/-! ## What runs no code -/

namespace Pays

/-- A panic is no lack of fuel. -/
theorem reply (r : Reply) : Pays T c d (fun _ => Native.reply r) 0 := by
  have hanswer : Pays T c d (fun _ => Native.answer r.answer) 0 := by
    cases r.answer with
    | value v => exact .pure v
    | error e => exact .fail e
    | panic payload =>
      exact fun m hm _ _ => .of_eq (r := .error (.panic payload) m) (fun _ => rfl)
        (not_ranOut_error (fun h => by cases h)) (.refl hm 0)
  refine .free (fun m hm _ _ => .ok (fun _ => rfl) ⟨Nat.le_refl _, rfl, .refl _, hm.flat, hm.functions,
    hm.suspended⟩) fun _ => ?_
  dsimp only
  split
  · exact .free (.modifyRest (fun _ => rfl) (fun _ => rfl) fun _ => rfl) fun _ => hanswer
  · exact hanswer

theorem native (operation : Native) (args : List Value) :
    Pays T c d (fun _ => operation.run context.host args) 0 := by
  unfold Native.run
  split
  · exact .pure _
  · unfold Native.sizeOf
    split
    · exact .ofExcept _
    · exact .fail _
  · exact .pure _
  · exact .gets fun _ _ _ => .pure _
  · exact .reply _
  · exact .fail _

theorem strict (operation : Strict) (operands : List Value) :
    Pays T c d (fun _ => operation.run context operands) 0 := by
  unfold Strict.run
  split
  · exact .ofExcept _
  · exact .fail _
  · exact .ofExcept _
  · exact .fail _
  · exact .pure _
  · exact .pure _
  · exact .native _ _

theorem notCallable (v : Value) : Pays T c d (fun _ => Engine.notCallable v) 0 :=
  .free (.quoted v) fun _ => .fail _

theorem addFunction {f : Function}
    (hf : ∀ params body, f.body = .code params body → sizeOf body ≤ T.code) :
    Pays T c d (fun _ => EvalM.addFunction f) 0 := by
  intro m hm _ _
  have hspent : Spent T m 0 (m.withFunction f) := by
    refine ⟨Nat.le_refl _, rfl, .refl _, hm.flat, fun id g params body hg hbody => ?_, hm.suspended⟩
    rw [Machine.function?, Machine.withFunction, Array.getElem?_push] at hg
    split at hg
    · obtain rfl := Option.some.inj hg
      exact hf params body hbody
    · exact hm.functions id g params body hg hbody
  exact .ok (fun _ => rfl) hspent

theorem closure (name : String) (params : List String) {body : Expr} (hbody : sizeOf body ≤ T.code) :
    Pays T c d (fun _ => Deferral.closure name params body) 0 :=
  .gets fun _ _ _ => .free (.addFunction fun _ _ h => by cases h; exact hbody) fun _ => .pure _

theorem addFunctions (captures : List Binding) (module : Option Module) {ds : List FunctionDecl}
    (hds : sizeOf ds ≤ T.code) :
    Pays T c d (fun _ => Deferral.addFunctions captures module ds) 0 := by
  induction ds with
  | nil => exact .pure ()
  | cons decl rest ih =>
    obtain ⟨name, params, body⟩ := decl
    simp only [List.cons.sizeOf_spec, FunctionDecl.mk.sizeOf_spec] at hds
    refine .free (.addFunction fun _ _ h => ?_) fun _ => ih (by omega)
    obtain ⟨-, rfl⟩ := FunctionBody.code.inj h
    change sizeOf body ≤ T.code
    omega

theorem evalModuleDecl (name : ModuleName) (exports : List String) {ds : List FunctionDecl}
    (hds : sizeOf ds ≤ T.code) : Pays T c d (fun _ => Deferral.evalModuleDecl name exports ds) 0 :=
  .gets fun _ _ _ => .check fun _ _ => .gets fun _ _ _ =>
    .free (.addFunctions _ _ hds) fun _ =>
      .free (.modifyRest (fun _ => rfl) (fun _ => rfl) fun _ => rfl) fun _ => .pure _

theorem evalModuleRef (name : ModuleName) : Pays T c d (fun _ => Deferral.evalModuleRef name) 0 := by
  refine .gets fun m _ _ => ?_
  cases Registry.get? m.rest.modules name with
  | none => exact .fail _
  | some m => exact .pure _

theorem resolveIn (module : Value) (name : String) :
    Pays T c d (fun _ => Deferral.resolveIn module name) 0 := by
  unfold Deferral.resolveIn
  split
  · exact .gets fun _ _ _ => .check fun _ _ => .pure _
  · exact .fail _

theorem raise (tag : String) (message : Value) : Pays T c d (fun _ => Engine.raise tag message) 0 := by
  unfold Engine.raise
  split
  · exact .gets fun _ _ _ => .fail _
  · exact .fail _

theorem log (entry : LogEntry) : Pays T c d (fun _ => EvalM.log entry) 0 :=
  .modifyRest (fun _ => rfl) (fun _ => rfl) fun _ => rfl

/-- A task that waits is what is spent. -/
theorem enqueue {task : Task} (htask : task.caller.callDepth = d) :
    Pays T c d (fun _ => Engine.enqueue task) (T.taskCost d) := by
  intro m hm _ _
  have hspent : Spent T m (T.taskCost d) (m.withQueue (m.rest.queue ++ [task])) := by
    refine ⟨?_, rfl, .refl _, hm.flat, hm.functions, hm.suspended⟩
    change debt T m.store.outcome? m.store.waits + Machine.tasksCost T (m.rest.queue ++ [task]) ≤
      debt T m.store.outcome? m.store.waits + Machine.tasksCost T m.rest.queue + T.taskCost d
    simp only [Machine.tasksCost, List.map_append, List.sum_append, List.map_cons, List.map_nil,
      List.sum_cons, List.sum_nil, htask]
    omega
  exact .ok (fun _ => rfl) hspent

end Pays

theorem Engine.length_evalItems {E : Engine} {es : List Expr} {m m' : Machine} {vs : List Value}
    (h : E.evalItems es m = .ok vs m') : vs.length = es.length := by
  induction es generalizing m vs m' with
  | nil =>
    cases h
    rfl
  | cons e rest ih =>
    obtain ⟨v, m₁, -, h⟩ := EvalM.ok_of_bind h
    obtain ⟨vs', m₂, hrest, h⟩ := EvalM.ok_of_bind h
    cases h
    rw [List.length_cons, List.length_cons, ih hrest]

/-- The size of a dictionary expression pays for its keys and values. -/
theorem Engine.total_flatten_le (entries : List (Expr × Expr)) :
    Expr.total (flatten entries) + (flatten entries).length ≤ sizeOf entries := by
  induction entries with
  | nil => exact Nat.zero_le _
  | cons entry rest ih =>
    obtain ⟨key, value⟩ := entry
    simp only [flatten, Expr.total_cons, List.length_cons, List.cons.sizeOf_spec, Prod.mk.sizeOf_spec]
    omega

/-- The looks of a pattern pay for its retries. -/
theorem Pattern.retries_le (p : Pattern) {bound? : String → Option Value} {v : Value}
    {keys : List Value} {σ : Outcomes} {u : Nat} (hu : 3 ≤ u) (n : Nat) :
    (p.guardSize + n) * u + 3 * p.patience bound? v keys σ ≤ (p.guardSize + p.looks + n) * u := by
  have hpatience : p.patience bound? v keys σ ≤ p.looks := Pattern.patience_le_looks
  have hlooks := Nat.mul_le_mul_left p.looks hu
  simp only [Nat.add_mul]
  omega

/-- The size of a pattern pays for its keys, for waiting for them, and for what comes then. -/
theorem Pattern.keys_first_lt (p : Pattern) {u : Nat} (hu : 4 ≤ u) (n : Nat) :
    Expr.total p.keys * u + (p.keys.length + ((p.guardSize + p.looks + n) * u + 3)) <
      (sizeOf p + n + 1) * u := by
  have hparts := Nat.mul_le_mul_right u p.keys_guards_looks_le
  have hlength := Nat.le_mul_of_pos_right p.keys.length (show 0 < u by omega)
  simp only [Nat.add_mul, Nat.one_mul] at hparts ⊢
  omega

/-- A unit of code that is left over pays for what comes besides the parts. -/
theorem Tariff.spare (T : Tariff) {d part units x : Nat} (hunits : part < units) (hx : x < T.rate d) :
    part * T.rate d + x ≤ units * T.rate d - 1 := by
  have hmore := Nat.mul_le_mul_right (T.rate d) (Nat.succ_le_of_lt hunits)
  rw [Nat.succ_mul] at hmore
  omega

/-- A call goes one level down. -/
theorem callDepth_bodyEnvironment {max : Nat} {id : FunctionId} {f : Function} {args : List Value}
    {location : Option Location} {caller env : Environment}
    (h : bodyEnvironment max id f args location caller = .ok env) :
    caller.callDepth < max ∧ env.callDepth = caller.callDepth + 1 := by
  rcases Engine.bodyEnvironment_cases max id f args location caller with
    ⟨-, hrefused⟩ | ⟨hroom, env', henv, hdepth⟩
  · rw [hrefused] at h
    cases h
  · rw [henv] at h
    cases h
    exact ⟨hroom, hdepth⟩

namespace Sustains

variable (h : Sustains context T c E)
include h

/-- A unit of code pays for a call, a task and some steps besides. -/
theorem rate_ge (d : Nat) : T.callCost d + T.scale + 15 ≤ T.rate d := by
  have hscale := h.scale
  rw [T.rate_eq]
  omega

/-! ## Operands and calls -/

theorem evalItems {es : List Expr} (hes : Expr.total es ≤ T.code) :
    Pays T c d (fun n => (E n).evalItems es) (Expr.total es * T.rate d) := by
  induction es with
  | nil => exact (Pays.pure []).mono (Nat.zero_le _)
  | cons e rest ih =>
    rw [Expr.total_cons] at hes ⊢
    rw [Nat.add_mul, ← Nat.add_zero (Expr.total rest * _)]
    exact .bind (h.eval d e (by omega)) fun v => .bind (ih (by omega)) fun vs => .pure _

theorem apply (operation : Strict) (operands : List Value) :
    Pays T c d (fun n => Strict.apply (E n) operation operands) (operands.length + 2) := by
  unfold Strict.apply
  split
  · rw [← Nat.add_zero 2]
    refine .bind (h.deliver.all operands) fun p => .bind (fun m hm _ hc => ?_) fun q => .pure _
    exact h.deliver.derive (.compute operation) (Nat.zero_le _) hm (fun _ _ _ => Nat.le_refl 2) hc
  · simp only [h.context_eq]
    exact (Pays.strict operation operands).mono (Nat.zero_le _)

/-- Operands cost as much as there are of them, and a unit of code for each. -/
theorem evalStrict (operation : Strict) {es : List Expr} (hes : Expr.total es ≤ T.code) :
    Pays T c d (fun n => (do
      let vs ← (E n).evalItems es
      operation.apply (E n) vs : EvalM Value)) ((Expr.total es + es.length) * T.rate d + 2) := by
  have hrate := h.rate_ge d
  have hlength := Nat.le_mul_of_pos_right es.length (show 0 < T.rate d by omega)
  refine Pays.mono (b := Expr.total es * T.rate d + (es.length + 2))
    (.bind_of (h.evalItems hes) ?_) (by rw [Nat.add_mul]; omega)
  rintro vs ⟨n, m, m', hvs⟩
  rw [← Engine.length_evalItems hvs]
  exact h.apply operation vs

theorem invoke {id : FunctionId} {f : Function} {args : List Value} {location : Option Location}
    (hf : ∀ params body, f.body = .code params body → sizeOf body ≤ T.code) :
    Pays T c d (fun n => (E n).invoke id f args location) (T.callCost d + args.length + 2) := by
  unfold Engine.invoke
  split
  · exact (Pays.fail _).mono (Nat.zero_le _)
  · split
    · exact (h.apply _ args).mono (by omega)
    · rename_i params body hbody
      simp only [h.context_eq]
      refine .gets fun m _ hd => ?_
      refine .check fun env henv => ?_
      -- the body is charged at the rate of the next depth, which is what a call costs at this one
      obtain ⟨hroom, hdepth⟩ := callDepth_bodyEnvironment henv
      rw [hd, ← h.limit] at hroom
      rw [hd] at hdepth
      have hcost : sizeOf body * T.rate env.callDepth ≤ T.callCost d := by
        rw [T.callCost_eq hroom, hdepth]
        exact Nat.mul_le_mul_right _ (hf params body hbody)
      exact .mono (.within (.traced (h.eval _ body (hf _ _ hbody)) _)) (by omega)

theorem callValue (callee : Value) (args : List Value) (location : Option Location) :
    Pays T c d (fun n => (E n).callValue callee args location) (T.callCost d + args.length + 2) := by
  unfold Engine.callValue
  split
  · rename_i id
    refine .gets fun m hm _ => ?_
    cases hf : m.current? id with
    | none => exact (Pays.notCallable _).mono (Nat.zero_le _)
    | some f =>
      obtain ⟨g, hg, rfl⟩ := Option.map_eq_some_iff.1 hf
      exact h.invoke fun params body => hm.functions id g params body hg
  · exact (Pays.notCallable _).mono (Nat.zero_le _)

/-- A task costs less than what it is worth in the queue. -/
theorem runTask (task : Task) :
    Pays T c d (fun n => (E n).runTask task) (T.callCost task.caller.callDepth + 3) :=
  Pays.mono (.bind (.contained (.within (h.callValue _ [] none))) fun _ => h.deliver.fulfil _ _)
    (Nat.le_refl _)

theorem submit (id : FunctionId) : Pays T c d (fun n => (E n).submit id) (T.taskCost d) := by
  have hrun : ∀ task : Task, task.caller.callDepth = d →
      Pays T c d (fun n => (E n).runTask task) (T.taskCost d) := by
    intro task htask
    refine (h.runTask task).mono ?_
    rw [htask, Tariff.taskCost]
    omega
  unfold Engine.submit
  simp only [h.context_eq]
  refine .gets fun m _ hd => .free .new fun target => ?_
  rw [← Nat.add_zero (T.taskCost d)]
  cases context.executor with
  | immediate => exact .bind (hrun _ hd) fun _ => .pure _
  | queued => exact .bind (.enqueue hd) fun _ => .pure _
  | refusing =>
    exact .bind ((h.deliver.fulfil _ _).mono (by unfold Tariff.taskCost; omega)) fun _ => .pure _
  | deciding atOnce =>
    dsimp only
    split
    · exact .bind (hrun _ hd) fun _ => .pure _
    · exact .bind (.enqueue hd) fun _ => .pure _

theorem spawn (v : Value) : Pays T c d (fun n => (E n).spawn v) (T.taskCost d) := by
  unfold Engine.spawn
  split
  · rename_i id
    refine .gets fun m _ _ => ?_
    cases m.current? id with
    | none => exact (Pays.fail _).mono (Nat.zero_le _)
    | some f =>
      dsimp only
      split
      · exact h.submit id
      · exact (Pays.fail _).mono (Nat.zero_le _)
  · exact (Pays.fail _).mono (Nat.zero_le _)

/-! ## Work that waits -/

/-- A frame that waits for a promise brings what it is owed. -/
theorem suspend (frame : Frame) {p : PromiseId} {m : Machine} {b : Nat} (hsize : frame.size ≤ T.code)
    (hm : m.Sane T)
    (hb : ∀ σ, Later m.store.outcome? σ → (σ p).isSome → frame.cost T σ m.rest.env + 2 ≤ b)
    (hc : m.potential T + b ≤ c) :
    Affords T (fun n => (E n).whenReady (.promise p) frame) m b := by
  have hderive := h.deliver.derive (.resume frame m.rest.env) hsize hm hb hc
  rw [← Nat.add_zero b]
  exact (hderive.bind (f := fun _ q => pure (.promise q)) fun q m' _ hspent =>
    .ok (fun _ => rfl) (.refl hspent.sane 0)).congr fun _ => rfl

theorem whenReady (v : Value) (frame : Frame) {x : Nat} (hsize : frame.size ≤ T.code)
    (hx : ∀ σ env, env.callDepth = d → frame.extra T σ env = x) :
    Pays T c d (fun n => (E n).whenReady v frame) (frame.size * T.rate d + x + 3) := by
  intro m hm hd hc
  have hcost : ∀ σ, frame.cost T σ m.rest.env = frame.size * T.rate d + x + 1 := by
    intro σ
    rw [Frame.cost, hx σ _ hd, hd]
  have hready : Affords T (fun n => (E n).resume frame v) m (frame.size * T.rate d + x + 3) :=
    (h.resume frame v m hsize hm (by rw [hcost]; omega)).mono (by rw [hcost]; omega)
  cases v with
  | promise p => exact h.suspend frame hsize hm (fun σ _ _ => by rw [hcost]) hc
  | _ => exact hready

/-- A part whose value is awaited leaves a unit of code for the wait and for what the frame costs
besides its own code. -/
theorem evalWhenReady {e : Expr} (frame : Frame) {x units : Nat}
    (hx : ∀ σ env, env.callDepth = d → frame.extra T σ env = x) (hroom : x + 3 < T.rate d)
    (hunits : sizeOf e + frame.size < units) (hcode : units ≤ T.code) :
    Pays T c d (fun n => (do
      let v ← (E n).eval e
      (E n).whenReady v frame : EvalM Value)) (units * T.rate d - 1) := by
  refine Pays.mono (.bind (h.eval d e (by omega)) fun v => h.whenReady v frame (by omega) hx) ?_
  have hspare := T.spare hunits hroom
  rw [Nat.add_mul] at hspare
  omega

theorem whenAllReady (frame : Frame) {vs : List Value} {now : Nat → List Value → EvalM Value}
    (hsize : frame.size ≤ T.code) (hx : ∀ σ env, frame.extra T σ env = 0)
    (hnow : Pays T c d (fun n => now n vs) (frame.size * T.rate d)) :
    Pays T c d (fun n => (E n).whenAllReady vs frame (now n))
      (vs.length + (frame.size * T.rate d + 3)) := by
  unfold Engine.whenAllReady
  split
  · exact .bind (h.deliver.all vs) fun p =>
      h.whenReady (.promise p) frame hsize fun σ env _ => hx σ env
  · exact hnow.mono (by omega)

/-! ## Bindings -/

theorem checkGuards {value : Value} {guards : List Expr} {next : Work}
    (hsize : Pattern.toll guards + next.size ≤ T.code) :
    Pays T c d (fun n => (E n).checkGuards value guards next)
      ((Pattern.toll guards + next.size) * T.rate d) := by
  have hrate := h.rate_ge d
  cases guards with
  | nil => exact (h.proceed d next (by omega)).mono (Nat.mul_le_mul_right _ (by omega))
  | cons guard rest =>
    rw [Pattern.toll_cons] at hsize ⊢
    exact (h.evalWhenReady (x := 0) (.bindGuard value rest next) (fun _ _ _ => rfl) (by omega)
      (by rw [Frame.size]; omega) hsize).mono (Nat.sub_le _ _)

/-- A match that has to wait is tried again with less patience. -/
theorem bindWith {value : Value} {pattern : Pattern} {keys : List Value} {next : Work} {m : Machine}
    {b : Nat} (hsize : pattern.guardSize + next.size ≤ T.code) (hm : m.Sane T)
    (hb : (pattern.guardSize + next.size) * T.rate m.rest.env.callDepth +
      3 * pattern.patience m.rest.env.getUser? value keys m.store.outcome? ≤ b)
    (hc : m.potential T + b ≤ c) :
    Affords T (fun n => (E n).bindWith value pattern keys next) m b := by
  cases hmatch : pattern.matching m.sight value keys with
  | error e =>
    exact .of_eq (r := .error (.error e) m) (fun n => Engine.bindWith_of_error hmatch)
      (not_ranOut_error (fun h => by cases h)) (.refl hm b)
  | ok verdict =>
    cases verdict with
    | noMatch =>
      exact ((Pays.noMatch value).mono (Nat.zero_le b) m hm rfl hc).congr fun n =>
        Engine.bindWith_of_noMatch hmatch
    | pending p =>
      -- by the time the frame is resumed, the promise is settled and there is one wait less to come
      refine (h.suspend (.bindRetry value pattern keys next) hsize hm (fun σ hσ hp => ?_)
        hc).congr fun n => Engine.bindWith_of_pending hmatch
      have hless := Pattern.patience_lt_of_pending hmatch hσ hp
      simp only [Frame.cost, Frame.size, Frame.extra]
      omega
    | matched found =>
      have htoll := Pattern.toll_of_matched hmatch
      have hcost : (Pattern.toll found.guards + next.size) * T.rate m.rest.env.callDepth ≤
          (pattern.guardSize + next.size) * T.rate m.rest.env.callDepth :=
        Nat.mul_le_mul_right _ (by omega)
      exact ((Pays.free (.define found.bindings) fun _ => (h.checkGuards (by omega)).mono
        (hcost.trans (by omega))) m hm rfl hc).congr fun n => Engine.bindWith_of_matched hmatch

theorem bind {value : Value} {pattern : Pattern} (next : Work)
    (hsize : sizeOf pattern + next.size ≤ T.code) :
    Pays T c d (fun n => (E n).bind value pattern next)
      ((sizeOf pattern + next.size + 1) * T.rate d) := by
  have hrate := h.rate_ge d
  have hparts := pattern.keys_guards_looks_le
  have hfirst := pattern.keys_first_lt (show 4 ≤ T.rate d by omega) next.size
  refine Pays.mono (b := Expr.total pattern.keys * T.rate d + (pattern.keys.length +
    ((Frame.bindKeys value pattern next).size * T.rate d + 3))) (.bind_of (h.evalItems (by omega)) ?_)
    hfirst.le
  rintro keys ⟨n, m, m', hkeys⟩
  rw [← Engine.length_evalItems hkeys]
  refine h.whenAllReady (.bindKeys value pattern next) (by rw [Frame.size]; omega) (fun _ _ => rfl)
    fun m hm hd hc => h.bindWith (by omega) hm ?_ hc
  rw [hd]
  exact pattern.retries_le (by omega) next.size

theorem bindingValue {pattern : Pattern} {e : Expr} (he : sizeOf e ≤ T.code) :
    Pays T c d (fun n => (E n).bindingValue pattern e) (sizeOf e * T.rate d) := by
  unfold Engine.bindingValue
  split
  · rename_i name _ params body
    refine (Pays.closure _ _ ?_).mono (Nat.zero_le _)
    rw [Expr.lambda.sizeOf_spec] at he
    omega
  · exact h.eval d e he

theorem evalLet {bindings : List (Pattern × Expr)} {body : Expr}
    (hsize : sizeOf bindings + sizeOf body ≤ T.code) :
    Pays T c d (fun n => (E n).evalLet bindings body)
      ((sizeOf bindings + sizeOf body) * T.rate d - 1) := by
  have hrate := h.rate_ge d
  cases bindings with
  | nil =>
    refine (h.eval d body (by omega)).mono ?_
    rw [List.nil.sizeOf_spec, Nat.add_mul]
    omega
  | cons binding rest =>
    obtain ⟨pattern, e⟩ := binding
    simp only [List.cons.sizeOf_spec, Prod.mk.sizeOf_spec] at hsize ⊢
    refine Pays.mono (.bind (h.bindingValue (by omega)) fun v =>
      h.bind (.letIn rest body) (by rw [Work.size]; omega)) ?_
    simp only [Work.size, Nat.add_mul, Nat.one_mul]
    omega

theorem evalBlock {steps : List Step} (hsize : sizeOf steps ≤ T.code) :
    Pays T c d (fun n => (E n).evalBlock steps) (sizeOf steps * T.rate d - 1) := by
  have hrate := h.rate_ge d
  unfold Engine.evalBlock
  split
  · exact (Pays.pure _).mono (Nat.zero_le _)
  · rename_i e
    simp only [List.cons.sizeOf_spec, Step.run.sizeOf_spec] at hsize ⊢
    refine (h.eval d e (by omega)).mono ?_
    simp only [Nat.add_mul, Nat.one_mul]
    omega
  · rename_i e rest _
    simp only [List.cons.sizeOf_spec, Step.run.sizeOf_spec] at hsize ⊢
    exact h.evalWhenReady (x := 0) (.andThen (.block rest)) (fun _ _ _ => rfl) (by omega)
      (by rw [Frame.size, Work.size]; omega) hsize
  · rename_i pattern e
    simp only [List.cons.sizeOf_spec, List.nil.sizeOf_spec, Step.bind.sizeOf_spec] at hsize ⊢
    refine Pays.mono (b := sizeOf e * T.rate d + (sizeOf pattern + 1 + 1) * T.rate d)
      (.bind (h.eval d e (by omega)) fun v =>
        h.bind (.yield v) (by rw [Work.size]; omega)) ?_
    simp only [Nat.add_mul, Nat.one_mul]
    omega
  · rename_i pattern e rest _
    simp only [List.cons.sizeOf_spec, Step.bind.sizeOf_spec] at hsize ⊢
    refine Pays.mono (.bind (h.eval d e (by omega)) fun v =>
      h.bind (.block rest) (by rw [Work.size]; omega)) ?_
    simp only [Work.size, Nat.add_mul, Nat.one_mul]
    omega

/-! ## Selections -/

theorem evalInArm {bindings : List (String × Value)} {e : Expr} (he : sizeOf e ≤ T.code) :
    Pays T c d (fun n => (E n).evalInArm bindings e) (sizeOf e * T.rate d) :=
  .inFrame (.free (.define bindings) fun _ => h.eval d e he)

theorem choose {trial : Trial} {bindings : List (String × Value)}
    {alternatives : List (Option Expr × Expr)}
    (hsize : sizeOf alternatives + sizeOf trial.later ≤ T.code) :
    Pays T c d (fun n => (E n).choose trial bindings alternatives)
      ((sizeOf alternatives + sizeOf trial.later) * T.rate d) := by
  have hrate := h.rate_ge d
  unfold Engine.choose
  split
  · exact (h.proceed d trial.next (Nat.le_of_add_left_le hsize)).mono
      (Nat.mul_le_mul_right _ (Nat.le_add_left _ _))
  · rename_i body others
    simp only [List.cons.sizeOf_spec, Prod.mk.sizeOf_spec, Option.none.sizeOf_spec] at hsize ⊢
    exact (h.evalInArm (by omega)).mono (Nat.mul_le_mul_right _ (by omega))
  · rename_i guard body others
    simp only [List.cons.sizeOf_spec, Prod.mk.sizeOf_spec, Option.some.sizeOf_spec] at hsize ⊢
    refine Pays.mono (.bind (h.evalInArm (by omega)) fun v =>
      h.whenReady v (.alternative trial bindings body others) (by rw [Frame.size]; omega)
        fun _ _ _ => rfl) ?_
    simp only [Frame.size, Nat.add_mul, Nat.one_mul]
    omega

theorem checkArmGuards {trial : Trial} {bindings : List (String × Value)} {guards : List Expr}
    (hsize : Pattern.toll guards + trial.size ≤ T.code) :
    Pays T c d (fun n => (E n).checkArmGuards trial bindings guards)
      ((Pattern.toll guards + trial.size) * T.rate d) := by
  have hrate := h.rate_ge d
  cases guards with
  | nil =>
    exact (h.choose (Nat.le_of_add_left_le hsize)).mono (Nat.mul_le_mul_right _ (Nat.le_add_left _ _))
  | cons guard rest =>
    rw [Pattern.toll_cons] at hsize ⊢
    refine Pays.mono (.bind (h.evalInArm (by omega)) fun v =>
      h.whenReady v (.armGuard trial bindings rest) (by rw [Frame.size]; omega)
        fun _ _ _ => rfl) ?_
    simp only [Frame.size, Nat.add_mul, Nat.one_mul]
    omega

theorem tryArm {trial : Trial} {keys : List Value} {m : Machine} {b : Nat}
    (hsize : trial.arm.pattern.guardSize + trial.size ≤ T.code) (hm : m.Sane T)
    (hb : (trial.arm.pattern.guardSize + trial.size) * T.rate m.rest.env.callDepth +
      3 * trial.arm.pattern.patience m.rest.env.getUser? trial.value keys m.store.outcome? ≤ b)
    (hc : m.potential T + b ≤ c) :
    Affords T (fun n => (E n).tryArm trial keys) m b := by
  cases hmatch : trial.arm.pattern.matching m.sight trial.value keys with
  | error e =>
    exact .of_eq (r := .error (.error e) m) (fun n => Engine.tryArm_of_error hmatch)
      (not_ranOut_error (fun h => by cases h)) (.refl hm b)
  | ok verdict =>
    cases verdict with
    | noMatch =>
      have hnext : trial.next.size ≤ trial.arm.pattern.guardSize + trial.size :=
        (Nat.le_add_left _ _).trans (Nat.le_add_left _ _)
      have hcost := Nat.mul_le_mul_right (T.rate m.rest.env.callDepth) hnext
      exact ((h.proceed _ trial.next (hnext.trans hsize)).mono (hcost.trans (by omega)) m hm rfl
        hc).congr fun n => Engine.tryArm_of_noMatch hmatch
    | pending p =>
      refine (h.suspend (.armRetry trial keys) hsize hm (fun σ hσ hp => ?_) hc).congr
        fun n => Engine.tryArm_of_pending hmatch
      have hless := Pattern.patience_lt_of_pending hmatch hσ hp
      simp only [Frame.cost, Frame.size, Frame.extra]
      omega
    | matched found =>
      have htoll := Pattern.toll_of_matched hmatch
      have hcost : (Pattern.toll found.guards + trial.size) * T.rate m.rest.env.callDepth ≤
          (trial.arm.pattern.guardSize + trial.size) * T.rate m.rest.env.callDepth :=
        Nat.mul_le_mul_right _ (by omega)
      exact ((h.checkArmGuards (by omega)).mono (hcost.trans (by omega)) m hm rfl hc).congr
        fun n => Engine.tryArm_of_matched hmatch

theorem select {value : Value} {arms : List Arm} {unmatched : Unmatched}
    (hsize : sizeOf arms ≤ T.code) :
    Pays T c d (fun n => (E n).select value arms unmatched) (sizeOf arms * T.rate d - 1) := by
  have hrate := h.rate_ge d
  unfold Engine.select
  split
  · split
    · exact (Pays.noMatch value).mono (Nat.zero_le _)
    · exact (Pays.fail _).mono (Nat.zero_le _)
  · rename_i arm later
    obtain ⟨pattern, alternatives⟩ := arm
    simp only [List.cons.sizeOf_spec, Arm.mk.sizeOf_spec] at hsize ⊢
    have hparts := pattern.keys_guards_looks_le
    have hfirst := pattern.keys_first_lt (show 4 ≤ T.rate d by omega)
      (sizeOf alternatives + sizeOf later)
    have hframe : (Frame.armKeys ⟨value, .mk pattern alternatives, later, unmatched⟩).size =
        pattern.guardSize + pattern.looks + (sizeOf alternatives + sizeOf later) := rfl
    have hmore : (sizeOf pattern + (sizeOf alternatives + sizeOf later) + 1) * T.rate d ≤
        (1 + (1 + sizeOf pattern + sizeOf alternatives) + sizeOf later) * T.rate d :=
      Nat.mul_le_mul_right _ (by omega)
    refine Pays.mono (b := Expr.total pattern.keys * T.rate d + (pattern.keys.length +
      ((Frame.armKeys ⟨value, .mk pattern alternatives, later, unmatched⟩).size * T.rate d + 3)))
      (.bind_of (h.evalItems (by rw [Arm.pattern]; omega)) ?_) (by rw [hframe]; omega)
    rintro keys ⟨n, m, m', hkeys⟩
    have hcount : keys.length = pattern.keys.length := Engine.length_evalItems hkeys
    rw [← hcount]
    refine h.whenAllReady (.armKeys _) (by omega) (fun _ _ => rfl) fun m hm hd hc =>
      h.tryArm (by simp only [Arm.pattern, Trial.size, Arm.alternatives]; omega) hm ?_ hc
    rw [hd, hframe]
    exact pattern.retries_le (by omega) _

theorem recover {e : Error} {arms : List Arm} (hsize : sizeOf arms ≤ T.code) :
    Pays T c d (fun n => (E n).recover e arms) (sizeOf arms * T.rate d - 1) :=
  .free (.written fun _ => Machine.tangled_of_triple?) fun _ => h.select hsize

theorem evalAttempt {body : Expr} {arms : List Arm} (hsize : sizeOf body + sizeOf arms ≤ T.code) :
    Pays T c d (fun n => (E n).evalAttempt body arms)
      (sizeOf body * T.rate d + (sizeOf arms * T.rate d + 2)) := by
  refine .bind (.outcome (.inFrame (h.eval d body (by omega)))) fun outcome => ?_
  split
  · rename_i p
    refine .gets fun m hm hd => ?_
    rw [← Nat.add_zero (_ + 2)]
    refine .bind (fun m' hm' _ hc => ?_) fun q => .pure _
    refine h.deliver.derive (.recover arms m.rest.env) (Nat.le_of_add_left_le hsize) hm'
      (fun σ _ _ => ?_) hc
    rw [Handler.cost, hd]
  · exact (Pays.pure _).mono (Nat.zero_le _)
  · split
    · exact (h.recover (Nat.le_of_add_left_le hsize)).mono (by omega)
    · exact (Pays.fail _).mono (Nat.zero_le _)

/-! ## One more level -/

theorem evalBinary {op : BinaryOp} {left right : Expr}
    (he : sizeOf (Expr.binary op left right) ≤ T.code) :
    Pays T c d (fun n => (E n).evalKind (.binary op left right))
      (sizeOf (Expr.binary op left right) * T.rate d - 1) := by
  have hrate := h.rate_ge d
  have hop : 1 ≤ sizeOf op := by cases op <;> exact Nat.le_refl 1
  rw [Expr.binary.sizeOf_spec] at he ⊢
  have hconnective := h.evalWhenReady (d := d) (e := left) (x := 0) (.connectiveLeft op right)
    (fun _ _ _ => rfl) (by omega) (by rw [Frame.size]; omega) he
  simp only [Engine.evalKind]
  split
  · exact hconnective
  · exact hconnective
  · refine Pays.mono (b := sizeOf left * T.rate d + (sizeOf right * T.rate d + 4))
      (.bind (h.eval d left (by omega)) fun l => .bind (h.eval d right (by omega)) fun r =>
        h.apply _ [l, r]) ?_
    rw [← Nat.add_assoc, ← Nat.add_mul]
    exact T.spare (by omega) (by omega)

theorem evalCall {callee : Expr} {args : List Expr} {location : Option Location}
    (hsize : sizeOf callee + Expr.total args ≤ T.code) :
    Pays T c d (fun n => (E n).evalKind (.call callee args location))
      (sizeOf callee * T.rate d + ((Expr.total args + args.length) * T.rate d +
        (T.callCost d + 5))) := by
  have hrate := h.rate_ge d
  have hlength := Nat.le_mul_of_pos_right args.length (show 0 < T.rate d by omega)
  refine .bind (h.eval d callee (by omega)) fun f => Pays.mono (b := Expr.total args * T.rate d +
    (0 * T.rate d + (T.callCost d + args.length + 2) + 3)) (.bind_of (h.evalItems (by omega)) ?_)
      (by rw [Nat.add_mul]; omega)
  rintro vs ⟨n, m, m', hvs⟩
  rw [← Engine.length_evalItems hvs]
  exact h.whenReady f (.call vs location) (Nat.zero_le _) fun σ env hd => by rw [Frame.extra, hd]

theorem evalKind {e : Expr} (he : sizeOf e ≤ T.code) :
    Pays T c d (fun n => (E n).evalKind e) (sizeOf e * T.rate d - 1) := by
  have hrate := h.rate_ge d
  cases e with
  | literal v => exact (Pays.pure v).mono (Nat.zero_le _)
  | identifier name =>
    refine .gets fun m _ _ => ?_
    split
    · exact (Pays.pure _).mono (Nat.zero_le _)
    · exact (Pays.fail _).mono (Nat.zero_le _)
  | tuple items =>
    rw [Expr.tuple.sizeOf_spec, Expr.sizeOf_list] at he ⊢
    exact Pays.mono (.bind (h.evalItems (by omega)) fun vs => .pure _) (T.spare (by omega) (by omega))
  | sequence items =>
    rw [Expr.sequence.sizeOf_spec, Expr.sizeOf_list] at he ⊢
    exact Pays.mono (.bind (h.evalItems (by omega)) fun vs => .pure _) (T.spare (by omega) (by omega))
  | set items =>
    rw [Expr.set.sizeOf_spec, Expr.sizeOf_list] at he ⊢
    exact (h.evalStrict _ (by omega)).mono (T.spare (by omega) (by omega))
  | dict entries =>
    have hflat := Engine.total_flatten_le entries
    rw [Expr.dict.sizeOf_spec] at he ⊢
    exact (h.evalStrict _ (by omega)).mono (T.spare (by omega) (by omega))
  | binary op left right => exact h.evalBinary he
  | unary op operand =>
    rw [Expr.unary.sizeOf_spec] at he ⊢
    exact Pays.mono (b := sizeOf operand * T.rate d + 3)
      (.bind (h.eval d operand (by omega)) fun v => h.apply _ [v]) (T.spare (by omega) (by omega))
  | branch condition onTrue onFalse =>
    rw [Expr.branch.sizeOf_spec] at he ⊢
    exact h.evalWhenReady (x := 0) (.branch onTrue onFalse) (fun _ _ _ => rfl) (by omega)
      (by rw [Frame.size]; omega) he
  | letIn bindings body =>
    rw [Expr.letIn.sizeOf_spec] at he ⊢
    refine (Pays.inFrame (h.evalLet (by omega))).mono ?_
    simp only [Nat.add_mul, Nat.one_mul]
    omega
  | block steps =>
    rw [Expr.block.sizeOf_spec] at he ⊢
    refine (Pays.inFrame (h.evalBlock (by omega))).mono ?_
    simp only [Nat.add_mul, Nat.one_mul]
    omega
  | select scrutinee arms =>
    rw [Expr.select.sizeOf_spec] at he ⊢
    refine Pays.mono (.bind (h.eval d scrutinee (by omega)) fun v => h.select (by omega)) ?_
    simp only [Nat.add_mul, Nat.one_mul]
    omega
  | lambda name params body =>
    rw [Expr.lambda.sizeOf_spec] at he
    exact (Pays.closure _ params (by omega)).mono (Nat.zero_le _)
  | call callee args location =>
    rw [Expr.call.sizeOf_spec, Expr.sizeOf_list] at he ⊢
    refine (h.evalCall (by omega)).mono ?_
    rw [← Nat.add_assoc, ← Nat.add_mul]
    exact T.spare (by omega) (by omega)
  | moduleDecl name exports functions =>
    rw [Expr.moduleDecl.sizeOf_spec] at he
    exact (Pays.evalModuleDecl name exports (by omega)).mono (Nat.zero_le _)
  | moduleRef name => exact (Pays.evalModuleRef name).mono (Nat.zero_le _)
  | functionRef module name =>
    rw [Expr.functionRef.sizeOf_spec] at he ⊢
    exact h.evalWhenReady (x := 0) (.functionRef name) (fun _ _ _ => rfl) (by omega)
      (by rw [Frame.size]; omega) he
  | spawn function =>
    rw [Expr.spawn.sizeOf_spec] at he ⊢
    exact h.evalWhenReady .spawn (fun σ env hd => by rw [Frame.extra, hd])
      (by rw [Tariff.taskCost]; omega) (by rw [Frame.size]; omega) he
  | raise tag message =>
    rw [Expr.raise.sizeOf_spec] at he ⊢
    exact h.evalWhenReady (x := 0) (.raise tag) (fun _ _ _ => rfl) (by omega)
      (by rw [Frame.size]; omega) he
  | attempt body arms =>
    rw [Expr.attempt.sizeOf_spec] at he ⊢
    refine (h.evalAttempt (by omega)).mono ?_
    simp only [Nat.add_mul, Nat.one_mul]
    omega

theorem evalStep {e : Expr} (he : sizeOf e ≤ T.code) :
    Pays T c d (fun n => (E n).evalStep e) (sizeOf e * T.rate d - 1) := by
  refine .gets fun m _ _ => ?_
  split
  · exact (Pays.fail _).mono (Nat.zero_le _)
  · exact h.evalKind he

theorem proceedStep {w : Work} (hw : w.size ≤ T.code) :
    Pays T c d (fun n => (E n).proceedStep w) (w.size * T.rate d - 1) := by
  cases w with
  | letIn bindings body => exact h.evalLet hw
  | block steps => exact h.evalBlock hw
  | yield v => exact (Pays.pure v).mono (Nat.zero_le _)
  | select value arms unmatched => exact h.select hw

theorem connectiveLeft {op : BinaryOp} {right : Expr} (left : Value)
    (hsize : sizeOf right + 1 ≤ T.code) :
    Pays T c d (fun n => (E n).connectiveLeft op right left) ((sizeOf right + 1) * T.rate d) := by
  have hrate := h.rate_ge d
  unfold Engine.connectiveLeft
  split
  · exact (Pays.pure _).mono (Nat.zero_le _)
  · exact (Pays.pure _).mono (Nat.zero_le _)
  · exact (h.evalWhenReady (x := 0) (.connectiveRight op) (fun _ _ _ => rfl) (by omega)
      (by rw [Frame.size]; omega) hsize).mono (Nat.sub_le _ _)
  · exact (Pays.fail _).mono (Nat.zero_le _)

/-- What a frame is charged for being resumed is left over. -/
theorem resumeStep {frame : Frame} {v : Value} {m : Machine} (hsize : frame.size ≤ T.code)
    (hm : m.Sane T) (hc : m.potential T + frame.cost T m.store.outcome? m.rest.env ≤ c + 1) :
    Affords T (fun n => (E n).resumeStep frame v) m (frame.cost T m.store.outcome? m.rest.env) := by
  have hrate := h.rate_ge m.rest.env.callDepth
  suffices hpays : Affords T (fun n => (E n).resumeStep frame v) m
      (frame.size * T.rate m.rest.env.callDepth + frame.extra T m.store.outcome? m.rest.env) from
    hpays.mono (Nat.le_succ _)
  have hroom : m.potential T + (frame.size * T.rate m.rest.env.callDepth +
      frame.extra T m.store.outcome? m.rest.env) ≤ c := by
    rw [Frame.cost] at hc
    omega
  -- the frames whose price does not depend on what is known
  have plain : ∀ {x : Nat → EvalM Value} {b : Nat}, Pays T c m.rest.env.callDepth x b →
      b ≤ frame.size * T.rate m.rest.env.callDepth + frame.extra T m.store.outcome? m.rest.env →
      Affords T x m (frame.size * T.rate m.rest.env.callDepth +
        frame.extra T m.store.outcome? m.rest.env) :=
    fun hx hb => hx.mono hb m hm rfl hroom
  cases frame with
  | branch onTrue onFalse =>
    rw [Frame.size] at hsize
    simp only [Engine.resumeStep]
    split
    · exact plain (h.eval _ onTrue (by omega)) (by simp only [Frame.size, Nat.add_mul]; omega)
    · exact plain (h.eval _ onFalse (by omega)) (by simp only [Frame.size, Nat.add_mul]; omega)
    · exact plain (.fail _) (Nat.zero_le _)
  | connectiveLeft op right => exact plain (h.connectiveLeft v hsize) (Nat.le_refl _)
  | connectiveRight op =>
    simp only [Engine.resumeStep]
    split
    · exact plain (.pure _) (Nat.zero_le _)
    · exact plain (.fail _) (Nat.zero_le _)
  | andThen next => exact plain (h.proceed _ next hsize) (Nat.le_refl _)
  | bindKeys value pattern next =>
    rw [Frame.size] at hsize
    exact h.bindWith (by omega) hm (pattern.retries_le (by omega) next.size) hroom
  | bindRetry value pattern keys next => exact h.bindWith hsize hm (Nat.le_refl _) hroom
  | bindGuard value guards next =>
    refine plain (.check fun holds _ => ?_) (Nat.le_refl _)
    split
    · exact h.checkGuards hsize
    · exact (Pays.noMatch value).mono (Nat.zero_le _)
  | armKeys trial =>
    rw [Frame.size] at hsize
    exact h.tryArm (by omega) hm (trial.arm.pattern.retries_le (by omega) trial.size) hroom
  | armRetry trial keys => exact h.tryArm hsize hm (Nat.le_refl _) hroom
  | armGuard trial bindings guards =>
    refine plain (.check fun holds _ => ?_) (Nat.le_refl _)
    have hnext : trial.next.size ≤ Pattern.toll guards + trial.size :=
      (Nat.le_add_left _ _).trans (Nat.le_add_left _ _)
    split
    · exact h.checkArmGuards hsize
    · exact (h.proceed _ trial.next (hnext.trans hsize)).mono (Nat.mul_le_mul_right _ hnext)
  | alternative trial bindings body others =>
    rw [Frame.size] at hsize
    refine plain (.check fun holds _ => ?_) (Nat.le_refl _)
    split
    · exact (h.evalInArm (by omega)).mono (Nat.mul_le_mul_right _ (by rw [Frame.size]; omega))
    · exact (h.choose (by omega)).mono (Nat.mul_le_mul_right _ (by rw [Frame.size]; omega))
  | call args location => exact plain (h.callValue v args location) (Nat.le_add_left _ _)
  | spawn => exact plain (h.spawn v) (Nat.le_add_left _ _)
  | functionRef name => exact plain (.resolveIn v name) (Nat.zero_le _)
  | raise tag => exact plain (.raise tag v) (Nat.zero_le _)

theorem callFunction (function v : Value) :
    Pays T c d (fun n => (E n).callFunction function [v]) (T.callCost d + 6) := by
  refine (h.whenReady function (.call [v] none) (Nat.zero_le _) fun σ env hd => by
    rw [Frame.extra, hd]).mono ?_
  simp only [Frame.size, List.length_cons, List.length_nil]
  omega

theorem handle {handler : Handler} {o : Outcome} {m : Machine} (hsize : handler.size ≤ T.code)
    (hm : m.Sane T) (hc : m.potential T + handler.cost T m.store.outcome? ≤ c) :
    Affords T (fun n => (E n).handle handler o) m (handler.cost T m.store.outcome?) := by
  have plain : ∀ {x : Nat → EvalM Outcome} {b : Nat}, Pays T c m.rest.env.callDepth x b →
      b ≤ handler.cost T m.store.outcome? → Affords T x m (handler.cost T m.store.outcome?) :=
    fun hx hb => hx.mono hb m hm rfl hc
  have hpass : Affords T (fun n => (pure o : EvalM Outcome)) m (handler.cost T m.store.outcome?) :=
    plain (.pure o) (Nat.zero_le _)
  cases handler with
  | resume frame env =>
    cases o with
    | error e => exact hpass
    | ok v => exact .outcome (.within (h.resume frame v (m.withEnv env) hsize (hm.withEnv env) hc))
  | compute operation =>
    cases o with
    | error e => exact hpass
    | ok v =>
      simp only [Engine.handle, h.context_eq]
      exact plain (.outcome (.strict operation _)) (Nat.zero_le _)
  | recover arms env =>
    cases o with
    | ok v => exact hpass
    | error e =>
      simp only [Engine.handle]
      split
      · exact plain (.outcome (.within (h.recover hsize))) (Nat.sub_le _ _)
      · exact hpass
  | apply function env =>
    cases o with
    | error e => exact hpass
    | ok v => exact plain (.outcome (.within (h.callFunction function v))) (Nat.le_refl _)
  | applyEither function env =>
    simp only [Engine.handle]
    refine plain (.free (.written fun m' htext => ?_) fun argument => ?_) (Nat.le_refl _)
    · cases o with
      | ok v => cases htext
      | error e => exact Machine.tangled_of_triple? htext
    · exact .outcome (.within (h.callFunction function argument))
  | report label =>
    simp only [Engine.handle]
    exact plain (.gets fun _ _ _ => .free (.log _) fun _ => .pure o) (Nat.zero_le _)

theorem deliverStep {k : Continuation Handler} {o : Outcome} {m : Machine} (hm : m.Sane T)
    (ho : Concrete o) (hsize : k.size ≤ T.code)
    (hc : m.potential T + k.cost T m.store.outcome? ≤ c + 1) :
    Affords T (fun n => (E n).deliverStep k o) m (k.cost T m.store.outcome?) := by
  cases k with
  | adopt target =>
    have hsettle := h.deliver.settle ho target m hm rfl (Nat.le_of_succ_le_succ hc)
    refine (hsettle.mono (Nat.zero_le _)).congr fun n => ?_
    rw [← Promise.fulfil_concrete _ ho]
    rfl
  | derive target handler =>
    rw [Continuation.cost] at hc ⊢
    refine Affords.mono (b := handler.cost T m.store.outcome? + 1) ?_ (Nat.le_succ _)
    refine (h.handle hsize hm (by omega)).bind fun answer m' _ hspent => ?_
    have hpotential := hspent.potential
    exact h.deliver.fulfil target answer m' hspent.sane rfl (by omega)
  | gather id place =>
    rw [Continuation.cost] at hc ⊢
    have hspent := Spent.of_store hm (Store.waits_record id place o m.store)
      (Store.state_record id place o m.store)
    have hpotential := hspent.potential
    cases hfound : (m.store.record id place o).1 with
    | none =>
      exact .ok (fun n => Promise.deliverStep_gather_none _ _ hfound) (hspent.mono (Nat.zero_le 1))
    | some found =>
      have hcombined := Store.concrete_of_record hfound
      have hsettle := h.deliver.settle hcombined found.1 _ hspent.sane rfl (by omega)
      refine hsettle.after (fun n => ?_) (by omega) rfl hspent.later
      rw [Engine.deliverStep, Promise.deliverStep_gather_some _ _ hfound,
        Promise.fulfil_concrete _ hcombined]
      rfl
  | notify handler =>
    rw [Continuation.cost] at hc ⊢
    refine Affords.mono (b := handler.cost T m.store.outcome? + 0) ?_ (Nat.le_succ _)
    exact (h.handle hsize hm (by omega)).bind fun _ m' _ hspent =>
      .ok (fun _ => rfl) (.refl hspent.sane 0)

/-- One more level of evaluation sustains a little more. -/
theorem step : Sustains context T (c + 1) fun n => (E n).step where
  context_eq := h.context_eq
  limit := h.limit
  scale := h.scale
  eval d e he := by
    have hrate := h.rate_ge d
    exact (h.evalStep he).ascend (Nat.mul_pos (Expr.sizeOf_pos e) (by omega))
  proceed d w hw := by
    have hrate := h.rate_ge d
    exact (h.proceedStep hw).ascend (Nat.mul_pos w.size_pos (by omega))
  resume _ _ _ hsize hm hc := h.resumeStep hsize hm hc
  deliver _ _ _ hm ho hsize hc := h.deliverStep hm ho hsize hc

end Sustains

/-- With enough fuel, evaluation can pay for whatever it is asked to do. -/
theorem sustains_engine (hlimit : T.maxCallDepth = context.maxCallDepth) (hscale : 1 ≤ T.scale)
    (c : Nat) : Sustains context T c (engine context) := by
  induction c with
  | zero =>
    -- there is nothing that costs nothing
    have hrate : ∀ d, 0 < T.rate d := fun d => by
      rw [T.rate_eq]
      omega
    refine ⟨engine_context context, hlimit, hscale, fun d e _ m _ _ hc => ?_, fun d w _ m _ _ hc => ?_,
      fun frame v m _ _ hc => ?_, fun k o m _ _ _ hc => ?_⟩
    · have := Nat.mul_pos (Expr.sizeOf_pos e) (hrate d)
      omega
    · have := Nat.mul_pos w.size_pos (hrate d)
      omega
    · rw [Frame.cost] at hc
      omega
    · have := k.cost_pos (T := T) (σ := m.store.outcome?)
      omega
  | succ c ih =>
    have hstep := ih.step
    refine ⟨engine_context context, hlimit, hscale, fun d e he m hm hd hc => ?_,
      fun d w hw m hm hd hc => ?_, fun frame v m hsize hm hc => ?_, fun k o m hm ho hsize hc => ?_⟩
    · exact (hstep.eval d e he m hm hd hc).succ fun n => by rw [engine_succ]
    · exact (hstep.proceed d w hw m hm hd hc).succ fun n => by rw [engine_succ]
    · exact (hstep.resume frame v m hsize hm hc).succ fun n => by rw [engine_succ]
    · exact (hstep.deliver k o m hm ho hsize hc).succ fun n => by simp only [engine_succ]

end Deferral
