import Deferral.Proofs.Transparency.Start

/-!
# Programs with tasks

A transparent program with tasks computes what it computes without them (`spawn_transparent`), however
the host schedules the tasks: each of them is run at once, or waits in the queue until the host takes
it from there. A schedule says which task is taken each time, and tasks that are queued meanwhile may
be taken like any other.
-/

set_option autoImplicit false

namespace Deferral

/-- Takes one task out of a queue, counting round. -/
def takeAt (i : Nat) (queue : List Task) : Option (Task × List Task) :=
  queue[i % queue.length]?.map fun task => (task, queue.eraseIdx (i % queue.length))

/-- What is taken, and what is left. -/
theorem takeAt_of_ne_nil (i : Nat) {queue : List Task} (h : queue ≠ []) :
    ∃ task rest, takeAt i queue = some (task, rest) ∧ queue.Perm (task :: rest) := by
  have hlt : i % queue.length < queue.length := Nat.mod_lt _ (List.length_pos_of_ne_nil h)
  refine ⟨queue[i % queue.length], _, ?_, (List.getElem_cons_eraseIdx_perm hlt).symm⟩
  rw [takeAt, List.getElem?_eq_getElem hlt]
  rfl

/-- Runs queued tasks in the order of a schedule, those that are queued meanwhile included, until none
is left or the schedule ends. -/
def Engine.runSchedule (E : Engine) : List Nat → EvalM Unit
  | [] => pure ()
  | i :: later => do
    match ← EvalM.gets fun m => takeAt i m.rest.queue with
    | none => pure ()
    | some (task, queue) => do
      EvalM.modifyRest ({ · with queue })
      E.runTask task
      runSchedule E later

theorem Engine.runSchedule_apply (E : Engine) (i : Nat) (later : List Nat) (m : Machine) :
    E.runSchedule (i :: later) m = (match takeAt i m.rest.queue with
      | none => pure ()
      | some (task, queue) => do
        EvalM.modifyRest ({ · with queue })
        E.runTask task
        E.runSchedule later : EvalM Unit) m := rfl

theorem Engine.runSchedule_cons (E : Engine) {i : Nat} {later : List Nat} {m : Machine} {task : Task}
    {queue : List Task} (h : takeAt i m.rest.queue = some (task, queue)) :
    E.runSchedule (i :: later) m =
      (E.runTask task >>= fun _ => E.runSchedule later) (m.withQueue queue) := by
  rw [runSchedule_apply, h]
  rfl

theorem Engine.runSchedule_idle (E : Engine) {m : Machine} (h : m.rest.queue = [])
    (schedule : List Nat) : E.runSchedule schedule m = .ok () m := by
  cases schedule with
  | nil => rfl
  | cons i later =>
    rw [runSchedule_apply, h]
    rfl

section

variable {S : Setting} {G : Plan} {F : List (Continuation Handler)} {m : Machine} {n : Nat}
  {E : Engine}

/-- A task that is queued counts. -/
theorem Good.load_pos (h : Good S G F m) (hqueue : S.tasks m ≠ []) : 0 < S.load G F m := by
  obtain ⟨task, ht⟩ := List.exists_mem_of_ne_nil _ hqueue
  obtain ⟨-, -, -, -, -, -, -, weight⟩ := h.tasks task ht
  have hsum : G.weight task.target ≤ ((S.tasks m).map fun t => G.weight t.target).sum :=
    List.le_sum_of_mem (List.mem_map.2 ⟨task, ht, rfl⟩)
  rw [Setting.load]
  omega

/-- Each task that is run makes the load less, so a schedule that is long enough empties the queue. -/
theorem Simulates.runSchedule (h : Simulates S n E) (holder : S.older = 0) (schedule : List Nat)
    (hgood : Good S G [] m) (hload : S.load G [] m ≤ n) (hlength : S.load G [] m ≤ schedule.length) :
    ∃ G' m', E.runSchedule schedule m = .ok () m' ∧ Leads S 0 0 [] G [] m G' [] m' ∧
      S.tasks m' = [] := by
  have htasks : ∀ m : Machine, S.tasks m = m.rest.queue := by
    intro m
    rw [Setting.tasks, holder]
    rfl
  induction schedule generalizing G m with
  | nil =>
    refine ⟨G, m, rfl, .refl hgood, ?_⟩
    by_contra hqueue
    have hpos := hgood.load_pos hqueue
    rw [List.length_nil] at hlength
    omega
  | cons i later ih =>
    by_cases hqueue : m.rest.queue = []
    · exact ⟨G, m, E.runSchedule_idle hqueue _, .refl hgood, (htasks m).trans hqueue⟩
    · obtain ⟨task, rest, htake, hperm⟩ := takeAt_of_ne_nil i hqueue
      have hleft : (S.tasks m).Perm (task :: rest.drop S.older) := by
        rw [htasks, holder]
        exact hperm
      have hmem : task ∈ S.tasks m := hleft.mem_iff.2 (.head _)
      have hdequeue := hgood.leads_dequeue (by omega) hleft
      have hload₁ := hdequeue.load
      have htask := (hgood.tasks task hmem).mono (.refl G) hdequeue.advance.functions
      obtain ⟨G₁, m₁, hrun, hleads⟩ := h.runTask hdequeue.good htask (by omega)
      have hload₂ := hleads.load
      rw [List.length_cons] at hlength
      obtain ⟨G₂, m₂, hrest, hleads₂, hidle⟩ := ih hleads.good (by omega) (by omega)
      refine ⟨G₂, m₂, ?_, ((hdequeue.trans hleads).trans hleads₂).le (by omega), hidle⟩
      rw [E.runSchedule_cons htake, EvalM.bind_of_ok hrun]
      exact hrest

end

/-- Tasks are transparent. If a program computes `v` where each task is computed on the spot, then it
does so where tasks are run at once or queued, once all of them have been run, in any order. -/
theorem spawn_transparent {context : Context} {e : Expr} {d n : Nat} {m m' : Machine} {v : Value}
    (he : e.Transparent d) (hm : m.Ordinary) (hqueue : m.rest.queue = [])
    (hrun : (engine context n).eval e.erase m = .ok v m')
    (hdepth : m.rest.env.callDepth + d ≤ context.maxCallDepth)
    (haccepts : context.executor ≠ .refusing) :
    ∃ N, ∀ fuel ≥ N, ∃ r m₁, (engine context fuel).eval e m = .ok r m₁ ∧
      ∀ schedule, N ≤ schedule.length → ∃ m₂,
        (engine context fuel).runSchedule schedule m₁ = .ok () m₂ ∧ m₂.rest.queue = [] ∧
          ∃ w, m₂.lookThrough r = some (.ok w) ∧ (w == v) = true := by
  obtain ⟨-, -, c, hc⟩ := (faithful_engine context m.rest.functions n).eval he hm.plain hrun
  let S : Setting := .ofHeld context m [] d fun _ => haccepts
  have holder : S.older = 0 := congrArg List.length hqueue
  have hgood : Good S (.ofHeld []) [] m :=
    good_ofHeld (quiet_of_eval hrun) (fun _ h => by cases h) fun _ h => by cases h
  have hscope : ScopeStands S (.ofHeld []) 0 m.rest.env.bindings m.rest.env.bindings :=
    List.forall₂_same.2 fun b hb => ⟨rfl, rfl, .itself (hm.plain.inert b hb)⟩
  refine ⟨S.load (.ofHeld []) [] m + c, fun fuel hfuel => ?_⟩
  have hsimulates := simulates_engine S fuel
  obtain ⟨r, G, m₁, more, hrun₁, hleads, -, hr⟩ :=
    hsimulates.eval hc ⟨hgood, hscope, .inr hdepth, Nat.le_refl d⟩ hfuel
  have hload := hleads.load
  refine ⟨r, m₁, hrun₁, fun schedule hlength => ?_⟩
  obtain ⟨G₂, m₂, hrun₂, hleads₂, hidle⟩ :=
    hsimulates.runSchedule holder schedule hleads.good (by omega) (by omega)
  refine ⟨m₂, hrun₂, ?_, v,
    hleads₂.good.lookThrough hidle (hr.mono hleads₂.advance.plan (Nat.le_refl _)), Value.beq_refl v⟩
  rw [Setting.tasks, holder] at hidle
  exact hidle

/-! A task that starts another one, beside a third. -/

/-- The sum of `x` and twice `y`, computed by three tasks. -/
def threeTasks : Expr :=
  .binary .add
    (.spawn (.lambda none [] (.binary .add (.identifier "x")
      (.spawn (.lambda none [] (.identifier "y"))))))
    (.spawn (.lambda none [] (.identifier "y")))

/-- A number under each name. -/
def twoNumbers : Machine :=
  ⟨.empty, ⟨⟨[⟨"x", .int 2, false⟩, ⟨"y", .int 3, false⟩], [], [], none⟩, #[], [], fun _ => true,
    false, [], []⟩⟩

theorem spawn_transparent_threeTasks :
    ∃ N, ∀ fuel ≥ N, ∃ r m₁,
      (engine ⟨2, .queued, fun _ _ => ⟨.value .unit, [], false⟩⟩ fuel).eval threeTasks twoNumbers =
        .ok r m₁ ∧
      ∀ schedule, N ≤ schedule.length → ∃ m₂,
        (engine ⟨2, .queued, fun _ _ => ⟨.value .unit, [], false⟩⟩ fuel).runSchedule schedule m₁ =
          .ok () m₂ ∧ m₂.rest.queue = [] ∧
          ∃ w, m₂.lookThrough r = some (.ok w) ∧ (w == .int 8) = true := by
  refine spawn_transparent (d := 2) (n := 4) ?_ ?_ rfl rfl (by decide) fun h => by cases h
  · exact .binary .add (.spawn (.binary .add (.identifier _) (.spawn (.identifier _))))
      (.spawn (.identifier _))
  · exact List.forall_mem_cons.2 ⟨rfl, List.forall_mem_singleton.2 rfl⟩

end Deferral
