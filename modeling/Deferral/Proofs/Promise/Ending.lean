import Deferral.Proofs.Promise.Settlement
import Deferral.Proofs.Promise.Waiting

/-!
# Settling comes to an end

Where handlers perform no operation on promises themselves, whatever happens after a promise is given
an outcome is done by the continuations that are stored already, and each of them is used up. The one
thing that comes to be stored on the way is the adoption of a promise that a handler has answered with.
So a continuation stands for at most two runs (`Continuation.runs`), and what is left to run can be read
off the store (`Store.runsLeft`), whatever the promises wait for, in circles or not.

An adoption is over when it has run, because no promise holds a promise in a store that runs come
through (`Store.Reached.flat`); in another store it could go on forever.

`Cascade.Closes` keeps account of a computation: the runs in its trace and those that are left
afterwards are not more than those left before and the budget. It is closed under sequence, and
`Cascade.delivers` goes by induction on the fuel, which bounds how deeply runs are nested.
-/

set_option autoImplicit false

namespace Deferral

variable {η σ α β : Type}

/-! ## Runs -/

/-- How many runs a continuation can come to: its own, and one more if a handler's answer has to be
adopted. -/
def Continuation.runs : Continuation η → Nat
  | .derive .. => 2
  | .adopt _ | .gather .. | .notify _ => 1

theorem Continuation.runs_pos (k : Continuation η) : 0 < k.runs := by
  cases k <;> exact Nat.succ_pos _

/-- The runs that continuations can come to. -/
def Continuation.totalRuns (ks : Multiset (PromiseId × Continuation η)) : Nat :=
  (ks.map fun e => e.2.runs).sum

/-- The runs that all that waits can come to. -/
def Store.runsLeft (s : Store η) : Nat := Continuation.totalRuns s.waits

/-- A continuation is run. -/
def Event.isRun : Event η → Bool
  | .stage _ (.invoked ..) | .stage _ (.answered ..) => true
  | _ => false

/-- How many continuations are run. -/
def Event.runs (trace : List (Event η)) : Nat := trace.countP isRun

theorem Event.runs_of_not_isRun {e : Event η} (h : e.isRun = false) : runs [e] = 0 := by
  rw [runs, List.countP_singleton, h]
  rfl

theorem Event.runs_append (t u : List (Event η)) : runs (t ++ u) = runs t + runs u :=
  List.countP_append

namespace Continuation

theorem totalRuns_cons (e : PromiseId × Continuation η) (ks : Multiset (PromiseId × Continuation η)) :
    totalRuns (e ::ₘ ks) = e.2.runs + totalRuns ks := by
  rw [totalRuns, Multiset.map_cons, Multiset.sum_cons, totalRuns]

theorem totalRuns_add (a b : Multiset (PromiseId × Continuation η)) :
    totalRuns (a + b) = totalRuns a + totalRuns b := by
  rw [totalRuns, Multiset.map_add, Multiset.sum_add, totalRuns, totalRuns]

theorem totalRuns_le {a b : Multiset (PromiseId × Continuation η)} (h : a ≤ b) :
    totalRuns a ≤ totalRuns b := by
  obtain ⟨rest, rfl⟩ := Multiset.le_iff_exists_add.1 h
  rw [totalRuns_add]
  exact Nat.le_add_right _ _

end Continuation

namespace Store

theorem runsLeft_record (id : GatherId) (place : Nat) (o : Outcome) (s : Store η) :
    (s.record id place o).2.runsLeft = s.runsLeft := by
  rw [runsLeft, waits_record, runsLeft]

theorem runsLeft_register_le (p : PromiseId) (k : Continuation η) (s : Store η) :
    (s.register p k).2.runsLeft ≤ s.runsLeft + k.runs := by
  have hle := Continuation.totalRuns_le (waits_register_le p k s)
  rwa [Continuation.totalRuns_cons, Nat.add_comm] at hle

/-- What is due when a promise is settled is not left to run any more. -/
theorem runsLeft_settle_add (p : PromiseId) (o : Outcome) (s : Store η) :
    (s.settle p o).2.runsLeft +
      Continuation.totalRuns (Continuation.awaiting p (s.settle p o).1) = s.runsLeft := by
  rw [runsLeft, ← Continuation.totalRuns_add, waits_settle_add, runsLeft]

end Store

/-! ## Handlers that leave promises alone -/

/-- The routine performs no operation on promises. It may look at them, and it may panic. -/
def Routine.Passive : Routine η σ α → Prop
  | .done _ | .panic => True
  | .look next => ∀ w, (next w).Passive
  | .change _ next => next.Passive
  | _ => False

/-- A passive routine runs no continuation and leaves the store as it is. -/
theorem Routine.Passive.recordWith {r : Routine η σ α} (h : r.Passive) (w : World η σ) :
    ∃ res : EStateM.Result Halt (World η σ) α, (∀ deliver, r.recordWith deliver w = (res, [])) ∧
      (finalWorld res).store = w.store ∧ ∀ halt w', res = .error halt w' → halt = .panic := by
  induction r generalizing w with
  | done a => exact ⟨.ok a w, fun _ => rfl, rfl, fun _ _ he => by cases he⟩
  | panic => exact ⟨.error .panic w, fun _ => rfl, rfl, fun _ _ he => by cases he; rfl⟩
  | look next ih => exact ih w (h w) w
  | change f next ih => exact ih h { w with rest := f w.rest }
  | _ => exact h.elim

/-- A handler has panicked, and left the world like this. -/
def Panicked (handle : η → Outcome → Routine η σ Outcome) (w' : World η σ) : Prop :=
  ∃ h o w, (handle h o).perform handle 0 w = .error .panic w'

/-- The stores that runs from the empty one come through, at any point of a run. -/
def Store.Reached (handle : η → Outcome → Routine η σ Outcome) (s : Store η) : Prop :=
  ∃ (r : Routine η σ Unit) (n : Nat) (x : σ) (i : Nat),
    s = Event.replayAll ((r.record handle n ⟨.empty, x⟩).2.take i) .empty

theorem Store.Reached.flat {handle : η → Outcome → Routine η σ Outcome} {s : Store η}
    (h : s.Reached handle) : s.Flat := by
  obtain ⟨r, n, x, i, rfl⟩ := h
  obtain ⟨-, -, hflat⟩ := flatSpec_law.record handle n r ⟨.empty, x⟩ Store.flat_empty
  exact Event.flat_replayAll _ Store.flat_empty fun e he => hflat e (List.mem_of_mem_take he)

/-! ## Keeping account -/

namespace Cascade

variable {handle : η → Outcome → Routine η σ Outcome} {fuel b b₁ b₂ : Nat} {w w' : World η σ}

/-- How a computation may end: what has been run and what is left to run is paid for, and only the
panic of a handler has cut it short. -/
structure Paid (handle : η → Outcome → Routine η σ Outcome) (w : World η σ) (b : Nat)
    (r : EStateM.Result Halt (World η σ) α) (t : List (Event η)) : Prop where
  flat : (finalWorld r).store.Flat
  runs : Event.runs t + (finalWorld r).store.runsLeft ≤ w.store.runsLeft + b
  halt : ∀ h w', r = .error h w' → h = .panic ∧ Panicked handle w'

/-- With the fuel or more, the computation ends in the same way, within the budget. -/
def ClosesFrom (handle : η → Outcome → Routine η σ Outcome) (fuel : Nat) (x : Nat → Recorded η σ α)
    (w : World η σ) (b : Nat) : Prop :=
  ∃ r t, (∀ n, fuel ≤ n → x n w = (r, t)) ∧ Paid handle w b r t

/-- The computation closes wherever the fuel is enough for all runs that are left. -/
def Closes (handle : η → Outcome → Routine η σ Outcome) (fuel : Nat) (x : Nat → Recorded η σ α)
    (b : Nat) : Prop :=
  ∀ w : World η σ, w.store.Flat → w.store.runsLeft + b ≤ fuel → ClosesFrom handle fuel x w b

namespace ClosesFrom

variable {x : Nat → Recorded η σ α}

/-- A step that does not depend on the fuel. -/
theorem of_eq {a : α} {t : List (Event η)} (h : ∀ n, x n w = (.ok a w', t)) (hflat : w'.store.Flat)
    (hruns : Event.runs t + w'.store.runsLeft ≤ w.store.runsLeft + b) : ClosesFrom handle fuel x w b :=
  ⟨.ok a w', t, fun n _ => h n, hflat, hruns, fun _ _ he => by cases he⟩

theorem mono (h : ClosesFrom handle fuel x w b₁) (hb : b₁ ≤ b₂) : ClosesFrom handle fuel x w b₂ := by
  obtain ⟨r, t, hx, hend⟩ := h
  exact ⟨r, t, hx, hend.flat, hend.runs.trans (Nat.add_le_add_left hb _), hend.halt⟩

theorem bind {f : Nat → α → Recorded η σ β} (hx : ClosesFrom handle fuel x w b₁)
    (hf : ∀ a w', (∃ n t, x n w = (.ok a w', t)) → w'.store.Flat →
      w'.store.runsLeft ≤ w.store.runsLeft + b₁ → ClosesFrom handle fuel (fun n => f n a) w' b₂) :
    ClosesFrom handle fuel (fun n => x n >>= f n) w (b₁ + b₂) := by
  obtain ⟨r, t, hx, hflat, hruns, hhalt⟩ := hx
  cases r with
  | error e w₁ =>
    refine ⟨.error e w₁, t, fun n hn => ?_, hflat, hruns.trans (by omega), fun h w' he => ?_⟩
    · simp only [Bind.bind, hx n hn]
    · cases he
      exact hhalt e w₁ rfl
  | ok a w₁ =>
    have hleft := hruns
    simp only [finalWorld] at hflat hleft
    have hrun : x fuel w = (.ok a w₁, t) := hx fuel (Nat.le_refl fuel)
    obtain ⟨r', t', hf, hflat', hruns', hhalt'⟩ := hf a w₁ ⟨fuel, t, hrun⟩ hflat (by omega)
    refine ⟨r', t ++ t', fun n hn => ?_, hflat', ?_, hhalt'⟩
    · simp only [Bind.bind, hx n hn, hf n hn]
    · rw [Event.runs_append]
      omega

/-- A step may come first; what it takes from the store can be spent. -/
theorem after {y : Nat → Recorded η σ α} {t : List (Event η)} (h : ClosesFrom handle fuel x w' b₁)
    (hy : ∀ n, y n w = ((x n w').1, t ++ (x n w').2))
    (hruns : Event.runs t + w'.store.runsLeft + b₁ ≤ w.store.runsLeft + b₂) :
    ClosesFrom handle fuel y w b₂ := by
  obtain ⟨r, u, hx, hend⟩ := h
  refine ⟨r, t ++ u, fun n hn => by rw [hy n, hx n hn], hend.flat, ?_, hend.halt⟩
  have := hend.runs
  rw [Event.runs_append]
  omega

/-- A run that is written down first is paid for. -/
theorem run {y : Nat → Recorded η σ α} {e : Event η} (h : ClosesFrom handle fuel x w (b - 1))
    (hb : 0 < b) (he : e.isRun = true) (hy : ∀ n, y n w = ((x n w).1, e :: (x n w).2)) :
    ClosesFrom handle fuel y w b := by
  refine h.after (t := [e]) hy ?_
  rw [Event.runs, List.countP_singleton, if_pos he]
  omega

end ClosesFrom

namespace Closes

variable {x : Nat → Recorded η σ α}

theorem pure (a : α) : Closes handle fuel (fun _ => Pure.pure a) 0 := fun _ hw _ =>
  .of_eq (fun _ => rfl) hw (Nat.zero_add _).le

theorem mono (h : Closes handle fuel x b₁) (hb : b₁ ≤ b₂) : Closes handle fuel x b₂ := fun w hw hfuel =>
  (h w hw (by omega)).mono hb

theorem bind {f : Nat → α → Recorded η σ β} (hx : Closes handle fuel x b₁)
    (hf : ∀ a, Closes handle fuel (fun n => f n a) b₂) :
    Closes handle fuel (fun n => x n >>= f n) (b₁ + b₂) := fun w hw hfuel =>
  (hx w hw (by omega)).bind fun a w' _ hw' hleft => hf a w' hw' (by omega)

/-- Writing down what is not a run costs nothing. -/
theorem note {e : Event η} (he : e.isRun = false) :
    Closes handle fuel (fun _ => (Recorded.note e : Recorded η σ Unit)) 0 := fun _ hw _ =>
  .of_eq (t := [e]) (fun _ => rfl) hw (by rw [Event.runs_of_not_isRun he, Nat.zero_add]; rfl)

/-- An operand that comes to a gather makes nothing wait. -/
theorem record (id : GatherId) (place : Nat) (o : Outcome) :
    Closes handle fuel (fun _ => Recorded.onStore (Store.record id place o)
      fun _ => [.recorded id place o]) 0 := by
  intro w hw _
  refine .of_eq (fun _ => rfl) (hw.of_state_eq (Store.state_record id place o w.store)) ?_
  rw [Event.runs_of_not_isRun rfl, Nat.zero_add]
  exact (Store.runsLeft_record id place o w.store).le

/-- A handler that leaves promises alone costs nothing. -/
theorem handled {h : η} {o : Outcome} (hpassive : (handle h o).Passive)
    (deliver : Nat → Continuation η → Outcome → Recorded η σ Unit) :
    Closes handle fuel (fun n => (handle h o).recordWith (deliver n)) 0 := by
  intro w hw _
  obtain ⟨res, hrun, hstore, hhalt⟩ := hpassive.recordWith w
  refine ⟨res, [], fun n _ => hrun (deliver n), hstore ▸ hw, ?_, fun e w' he => ?_⟩
  · rw [hstore]
    exact (Nat.zero_add _).le
  · obtain rfl := hhalt e w' he
    refine ⟨rfl, h, o, w, ?_⟩
    rw [← Routine.record_fst, Routine.record, hrun, he]

end Closes

/-! ## Promises -/

/-- Continuations are run with the fuel. The run itself is counted where it is written down. -/
def Delivers (handle : η → Outcome → Routine η σ Outcome) (fuel : Nat)
    (deliver : Nat → Continuation η → Outcome → Recorded η σ Unit) : Prop :=
  ∀ (k : Continuation η) (o : Outcome), Concrete o → ∀ w : World η σ, w.store.Flat →
    w.store.runsLeft + k.runs ≤ fuel → ClosesFrom handle fuel (fun n => deliver n k o) w (k.runs - 1)

namespace Delivers

variable {deliver : Nat → Continuation η → Outcome → Recorded η σ Unit} {o : Outcome}
  (hd : Delivers handle fuel deliver)
include hd

theorem deliverAll (ho : Concrete o) (p : PromiseId) (ks : List (Continuation η)) :
    Closes handle fuel (fun n => Recorded.deliverAll (deliver n) p ks o)
      (Continuation.totalRuns (Continuation.awaiting p ks)) := by
  induction ks with
  | nil => exact .note rfl
  | cons k rest ih =>
    intro w hw hfuel
    have hsplit : Continuation.totalRuns (Continuation.awaiting p (k :: rest)) =
        k.runs + Continuation.totalRuns (Continuation.awaiting p rest) :=
      Continuation.totalRuns_cons (p, k) (Continuation.awaiting p rest)
    have hpos := k.runs_pos
    rw [hsplit] at hfuel ⊢
    -- one run of `k` is the one that is written down, and what is left of it pays for its delivery
    have hclosed := (hd k o ho w hw (by omega)).bind fun _ w' _ hw' hleft => ih w' hw' (by omega)
    exact (hclosed.mono (by omega)).run (by omega) rfl fun _ => rfl

/-- Settling a promise costs nothing: the continuations that waited for it are there. -/
theorem settle (ho : Concrete o) (p : PromiseId) :
    Closes handle fuel (fun n => Recorded.settle (deliver n) p o) 0 := by
  intro w hw hfuel
  rcases Store.settle_cases p o w.store with ⟨ks, hp, hs⟩ | ⟨o', hp, -⟩
  · have hleft := Store.runsLeft_settle_add p o w.store
    have hflat := hw.settle p ho
    rw [hs] at hleft hflat
    have hbegin : Recorded.beginSettle p o w =
        (.ok (some ks) ⟨w.store.setState p (.ofOutcome o), w.rest⟩, [.stage p (.settled o)]) := by
      simp only [Recorded.beginSettle, hp, hs]
    refine (hd.deliverAll ho p ks ⟨w.store.setState p (.ofOutcome o), w.rest⟩ hflat ?_).after
      (t := [.stage p (.settled o)]) (fun n => ?_) ?_
    · dsimp only at hleft ⊢
      omega
    · simp only [Recorded.settle, Bind.bind, hbegin]
    · dsimp only at hleft ⊢
      rw [Event.runs_of_not_isRun rfl]
      omega
  · refine .of_eq (a := ()) (t := []) (fun n => ?_) hw (Nat.zero_add _).le
    simp only [Recorded.settle, Recorded.beginSettle, Bind.bind, hp]
    cases o' <;> rfl

/-- A continuation is left to run, or is run at once. -/
theorem onComplete (p : PromiseId) (k : Continuation η) :
    Closes handle fuel (fun n => Recorded.onComplete (deliver n) p k) k.runs := by
  intro w hw hfuel
  rcases Store.register_cases p k w.store with ⟨ks, hp, hs⟩ | ⟨o, hp, hs⟩
  · have hleft := Store.runsLeft_register_le p k w.store
    have hrun : ∀ n, Recorded.onComplete (deliver n) p k w =
        (.ok () ⟨(w.store.register p k).2, w.rest⟩, [.stage p (.registered k)]) := by
      intro n
      simp only [Recorded.onComplete, Recorded.onStore, Bind.bind, hs]
      rfl
    refine .of_eq hrun (hw.register p k) ?_
    rw [Event.runs_of_not_isRun rfl]
    dsimp only
    omega
  · refine (hd k o (hw p o hp) w hw hfuel).run (e := .stage p (.answered k o)) k.runs_pos rfl fun n => ?_
    simp only [Recorded.onComplete, Recorded.onStore, Bind.bind, hs]
    rfl

/-- Giving a promise an outcome may leave one promise waiting for another. -/
theorem fulfil (p : PromiseId) (o : Outcome) :
    Closes handle fuel (fun n => Recorded.fulfil (deliver n) p o) 1 := by
  rcases concrete_or_promise o with ho | ⟨q, rfl⟩
  · simp only [Recorded.fulfil_concrete _ ho]
    exact (hd.settle ho p).mono (Nat.zero_le 1)
  · by_cases hq : q = p
    · subst hq
      simp only [Recorded.fulfil_self]
      exact (hd.settle (concrete_error _) q).mono (Nat.zero_le 1)
    · simp only [Recorded.fulfil_other _ hq]
      exact hd.onComplete q (.adopt p)

/-- Only the answer of a handler can leave a continuation behind. -/
theorem deliverStep (hpassive : ∀ h o, (handle h o).Passive) (ho : Concrete o)
    (k : Continuation η) :
    Closes handle fuel (fun n => Recorded.deliverStep (deliver n)
      (fun h o => (handle h o).recordWith (deliver n)) k o) (k.runs - 1) := by
  cases k with
  | adopt target =>
    -- the outcome is no promise, so nothing is adopted again
    simp only [Recorded.deliverStep, Recorded.fulfil_concrete _ ho]
    exact hd.settle ho target
  | derive target h =>
    exact .bind (.note rfl) fun _ => .bind (.handled (hpassive h o) deliver) fun answer =>
      hd.fulfil target answer
  | gather id place =>
    intro w hw hfuel
    change ClosesFrom handle fuel _ w (0 + 0)
    refine (Closes.record id place o w hw hfuel).bind fun found w' hrun hw' hleft => ?_
    cases found with
    | none => exact Closes.pure () w' hw' (by omega)
    | some found =>
      have hconcrete : Concrete found.2 := by
        obtain ⟨_, _, hrun⟩ := hrun
        simp only [Recorded.onStore, Prod.mk.injEq, EStateM.Result.ok.injEq] at hrun
        exact Store.concrete_of_record hrun.1.1
      simp only [Recorded.fulfil_concrete _ hconcrete]
      exact hd.settle hconcrete found.1 w' hw' (by omega)
  | notify h =>
    exact .bind (.note rfl) fun _ => .bind (.handled (hpassive h o) deliver) fun _ => .pure ()

end Delivers

/-- Every continuation is run to its end, if runs may be nested as deeply as there are runs left. -/
theorem delivers (hpassive : ∀ h o, (handle h o).Passive) :
    ∀ fuel, Delivers handle fuel (Routine.recordDeliver handle)
  | 0, k, o, _, w, _, hfuel => by
    have := k.runs_pos
    omega
  | fuel + 1, k, o, ho, w, hw, hfuel => by
    -- a continuation that is being run is not left to run, so one level less is enough inside it
    have hpos := k.runs_pos
    obtain ⟨r, t, hx, hend⟩ := (delivers hpassive fuel).deliverStep hpassive ho k w hw (by omega)
    refine ⟨r, t, fun n hn => ?_, hend⟩
    obtain ⟨m, rfl⟩ : ∃ m, n = m + 1 := ⟨n - 1, by omega⟩
    exact hx m (by omega)

end Cascade

/-- Giving any promise any outcome comes to an end, in every store that runs come through, if handlers
perform no operation on promises themselves, whatever they answer. Runs need not be nested more deeply
than there are runs left in the store and one more, and the end is the same if they may; nor are more
continuations run than that. Nothing but a handler's own panic cuts the call short. -/
theorem cascades_end {handle : η → Outcome → Routine η σ Outcome}
    (hpassive : ∀ h o, (handle h o).Passive) {s : Store η} (hs : s.Reached handle) (x : σ)
    (p : PromiseId) (o : Outcome) :
    ∃ r t, (∀ n, s.runsLeft + 1 ≤ n →
        Promise.fulfil (Routine.deliver handle n) p o ⟨s, x⟩ = r ∧
          (Recorded.fulfil (Routine.recordDeliver handle n) p o ⟨s, x⟩).2 = t) ∧
      Event.runs t ≤ s.runsLeft + 1 ∧
      ((∃ w', r = .ok () w') ∨ ∃ w', r = .error .panic w' ∧ Panicked handle w') := by
  obtain ⟨r, t, hrun, hpaid⟩ :=
    (Cascade.delivers hpassive (s.runsLeft + 1)).fulfil p o ⟨s, x⟩ hs.flat (Nat.le_refl _)
  refine ⟨r, t, fun n hn => ?_, ?_, ?_⟩
  · have hrecords := Records.fulfil (Routine.records_deliver handle n) p o ⟨s, x⟩
    exact ⟨hrecords.symm.trans (congrArg Prod.fst (hrun n hn)), congrArg Prod.snd (hrun n hn)⟩
  · exact (Nat.le_add_right _ _).trans hpaid.runs
  · cases r with
    | ok a w' => exact .inl ⟨w', rfl⟩
    | error h w' =>
      obtain ⟨rfl, hpanicked⟩ := hpaid.halt h w' rfl
      exact .inr ⟨w', rfl, hpanicked⟩

namespace Tangle

/-- Handler 0 answers with the promise that it is to settle, and handler 1 with one that waits for the
promise that it is to settle. -/
def handle (h : Nat) (o : Outcome) : Routine Nat Unit Outcome :=
  match h with
  | 0 => .done (.ok (.promise ⟨2⟩))
  | 1 => .done (.ok (.promise ⟨4⟩))
  | _ => .done o

/-- Two promises are fulfilled with each other, and three more derived from the first. -/
def routine : Routine Nat Unit Unit :=
  .new fun a => .new fun b => .fulfil a (.ok (.promise b)) (.fulfil b (.ok (.promise a))
    (.derive a 0 fun _ => .derive a 1 fun d => .derive d 2 fun _ => .done ()))

def store : Store Nat :=
  ⟨#[.pending [.adopt ⟨1⟩, .derive ⟨2⟩ 0, .derive ⟨3⟩ 1], .pending [.adopt ⟨0⟩], .pending [],
    .pending [.derive ⟨4⟩ 2], .pending []], #[]⟩

/-- The first three are settled; the other two wait for each other. -/
def after : Store Nat :=
  ⟨#[.fulfilled (.int 7), .fulfilled (.int 7), .failed (.resolution .selfFulfilment),
    .pending [.derive ⟨4⟩ 2], .pending [.adopt ⟨3⟩]], #[]⟩

end Tangle

open Tangle in
theorem cascades_end_tangle :
    (∀ h o, (handle h o).Passive) ∧ store.Reached handle ∧ store.runsLeft = 8 ∧
      ∀ n, 9 ≤ n → Promise.fulfil (Routine.deliver handle n) ⟨0⟩ (.ok (.int 7)) ⟨store, ()⟩ =
        .ok () ⟨after, ()⟩ := by
  have hpassive : ∀ h o, (handle h o).Passive := by
    intro h o
    unfold handle
    split <;> trivial
  have hreached : store.Reached handle := ⟨routine, 0, (), 20, rfl⟩
  have hleft : store.runsLeft = 8 := rfl
  obtain ⟨r, t, hend, -, -⟩ := cascades_end hpassive hreached () ⟨0⟩ (.ok (.int 7))
  rw [hleft] at hend
  have hnine : Promise.fulfil (Routine.deliver handle 9) ⟨0⟩ (.ok (.int 7)) ⟨store, ()⟩ =
      .ok () ⟨after, ()⟩ := by cbv
  refine ⟨hpassive, hreached, hleft, fun n hn => ?_⟩
  rw [(hend n hn).1, ← (hend 9 (Nat.le_refl 9)).1, hnine]

end Deferral
