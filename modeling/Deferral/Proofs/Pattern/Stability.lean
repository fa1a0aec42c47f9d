import Deferral.Proofs.Pattern.Patience
import Deferral.Proofs.Promise.Settlement

/-!
# Verdicts are stable

What a match says does not depend on the moment, but for the promise that it is waiting for. A verdict
that has been reached stays what it is when more promises are settled, with its bindings and guards or
with its error. A match that waits for a promise goes on waiting for it as long as the promise is
pending, and no longer; when it is tried again after that, it gets past that promise.

`Persistent` says so of a part of a match as a function of the outcomes that are known. Parts compose
(`Persistent.bind`), so the induction over patterns only has to name the parts.
`Pattern.verdict_stable` puts it together for any two points of any run of promise operations.
-/

set_option autoImplicit false

namespace Deferral

open Outcomes

/-- What `f` says it goes on saying when more becomes known, unless it waits for a promise; and it waits
for that promise until the outcome is known. -/
structure Persistent {α : Type} (f : Outcomes → Except Stop α) : Prop where
  decided : ∀ {σ σ'}, Later σ σ' → (∀ p, f σ ≠ .error (.wait p)) → f σ' = f σ
  unknown : ∀ {σ p}, f σ = .error (.wait p) → σ p = none
  waits : ∀ {σ σ' p}, Later σ σ' → f σ = .error (.wait p) → σ' p = none → f σ' = .error (.wait p)
  fails : ∀ {σ σ' p e}, Later σ σ' → f σ = .error (.wait p) → σ' p = some (.error e) →
    f σ' = .error (.fail e)

namespace Persistent

variable {α β : Type} {f : Outcomes → Except Stop α} {g : α → Outcomes → Except Stop β}

/-- What does not look at promises says the same at all times. -/
theorem const {r : Except Stop α} (hr : ∀ p, r ≠ .error (.wait p)) : Persistent fun _ => r where
  decided _ _ := rfl
  unknown h := absurd h (hr _)
  waits _ h _ := absurd h (hr _)
  fails _ h _ := absurd h (hr _)

theorem ok (a : α) : Persistent fun _ => (.ok a : Except Stop α) := const nofun

theorem mismatch : Persistent fun _ => (.error .mismatch : Except Stop α) := const nofun

theorem require (holds : Bool) (progress : Progress) :
    Persistent fun _ => Sight.require holds progress := by
  cases holds with
  | true => exact ok progress
  | false => exact mismatch

/-- While the first part waits, so does the whole; from then on it is the second part that counts. -/
theorem bind (hf : Persistent f) (hg : ∀ a, Persistent (g a)) :
    Persistent fun σ => f σ >>= fun a => g a σ := by
  -- the whole stops where the first part does, and else is the second part
  have first : ∀ {σ : Outcomes} {s}, f σ = .error s → (f σ >>= fun a => g a σ) = .error s := by
    intro σ s h
    rw [h]
    rfl
  have second : ∀ {σ : Outcomes} {a}, f σ = .ok a → (f σ >>= fun a => g a σ) = g a σ := by
    intro σ a h
    rw [h]
    rfl
  have stays : ∀ {σ σ' : Outcomes} {a}, Later σ σ' → f σ = .ok a → f σ' = .ok a := by
    intro σ σ' a hσ h
    rw [hf.decided hσ (by simp [h]), h]
  have waiting : ∀ {σ : Outcomes} {p}, (f σ >>= fun a => g a σ) = .error (.wait p) →
      f σ = .error (.wait p) ∨ ∃ a, f σ = .ok a ∧ g a σ = .error (.wait p) := by
    intro σ p h
    rcases hfσ : f σ with s | a
    · exact .inl (congrArg _ (Except.error.inj ((first hfσ).symm.trans h)))
    · exact .inr ⟨a, rfl, (second hfσ).symm.trans h⟩
  refine ⟨fun {σ σ'} hσ hwait => ?_, fun {σ p} h => ?_, fun {σ σ' p} hσ h hp => ?_,
    fun {σ σ' p e} hσ h hp => ?_⟩
  · rcases hfσ : f σ with s | a
    · have hs : ∀ p, f σ ≠ .error (.wait p) := fun p hp => hwait p (first hp)
      exact (first ((hf.decided hσ hs).trans hfσ)).trans rfl
    · have hga : ∀ p, g a σ ≠ .error (.wait p) := fun p hp => hwait p ((second hfσ).trans hp)
      exact (second (stays hσ hfσ)).trans ((hg a).decided hσ hga)
  · obtain hfσ | ⟨a, -, hga⟩ := waiting h
    · exact hf.unknown hfσ
    · exact (hg a).unknown hga
  · obtain hfσ | ⟨a, hfσ, hga⟩ := waiting h
    · exact first (hf.waits hσ hfσ hp)
    · exact (second (stays hσ hfσ)).trans ((hg a).waits hσ hga hp)
  · obtain hfσ | ⟨a, hfσ, hga⟩ := waiting h
    · exact first (hf.fails hσ hfσ hp)
    · exact (second (stays hσ hfσ)).trans ((hg a).fails hσ hga hp)

/-- Looking through a promise. -/
theorem settle (bound? : String → Option Value) (v : Value) :
    Persistent fun σ => Sight.settle ⟨σ, bound?⟩ v := by
  cases v with
  | promise p =>
    refine ⟨fun {σ σ'} hσ hwait => ?_, fun {σ q} h => ?_, fun {σ σ' q} _ h hq => ?_,
      fun {σ σ' q e} _ h hq => ?_⟩
    · cases ho : σ p with
      | none => exact absurd (by simp [Sight.settle, ho]) (hwait p)
      | some o => simp only [Sight.settle, ho, hσ p o ho]
    all_goals
      cases ho : σ p with
      | none =>
        obtain rfl : p = q := by simpa [Sight.settle, ho] using h
        simp_all [Sight.settle]
      | some o => cases o <;> simp [Sight.settle, ho] at h
  | _ => exact ok _

/-- Binding a name looks at what it is bound to and at the value. -/
theorem bindName (bound? : String → Option Value) (name : String) (v : Value) (progress : Progress) :
    Persistent fun σ => Sight.bind ⟨σ, bound?⟩ name v progress := by
  cases hb : (progress.bindings.lookup name).or (bound? name) with
  | none =>
    simp only [Sight.bind, hb]
    exact ok _
  | some bound =>
    simp only [Sight.bind, hb]
    exact (settle bound? bound).bind fun a => (settle bound? v).bind fun b => require (a == b) progress

end Persistent

/-! ## Patterns -/

namespace Pattern

mutual

theorem persistent_visit (bound? : String → Option Value) : ∀ (p : Pattern) (v : Value)
    (progress : Progress), Persistent fun σ => p.visit ⟨σ, bound?⟩ v progress
  | .wildcard, v, progress => .ok progress
  | .bind name, v, progress => .bindName bound? name v progress
  | .alias name inner, v, progress =>
    (persistent_visit bound? inner v progress).bind fun progress => .bindName bound? name v progress
  | .literal expected, v, progress =>
    (Persistent.settle bound? v).bind fun v => .require (v == expected) progress
  | .tuple items, v, progress => by
    refine (Persistent.settle bound? v).bind fun v => ?_
    cases v with
    | tuple values =>
      dsimp only
      split
      · exact persistent_visitItems bound? items values progress
      · exact .mismatch
    | _ => exact .mismatch
  | .sequence items, v, progress => by
    refine (Persistent.settle bound? v).bind fun v => ?_
    cases v with
    | seq s =>
      dsimp only
      split
      · exact persistent_visitItems bound? items s.toList progress
      · exact .mismatch
    | _ => exact .mismatch
  | .cons front rest back, v, progress => by
    simp only [visit]
    cases rest.badRest? with
    | some kind => exact .const nofun
    | none =>
      refine (Persistent.settle bound? v).bind fun v => ?_
      cases v with
      | seq s =>
        dsimp only
        split
        · exact (persistent_visitItems bound? front _ progress).bind fun progress =>
            (persistent_visit bound? rest _ progress).bind fun progress =>
              persistent_visitItems bound? back _ progress
        · exact .mismatch
      | _ => exact .mismatch
  | .dict entries, v, progress => by
    refine (Persistent.settle bound? v).bind fun v => ?_
    cases v with
    | dict found =>
      dsimp only
      split
      · exact .require _ progress
      · exact persistent_visitEntries bound? entries found progress
    | _ => exact .mismatch
  | .guarded inner guard, v, progress =>
    (persistent_visit bound? inner v progress).bind fun _ => .ok _
termination_by structural p => p

theorem persistent_visitItems (bound? : String → Option Value) : ∀ (ps : List Pattern)
    (vs : List Value) (progress : Progress),
    Persistent fun σ => visitItems ⟨σ, bound?⟩ ps vs progress
  | [], _, progress => .ok progress
  | _ :: _, [], progress => .ok progress
  | p :: ps, v :: vs, progress =>
    (persistent_visit bound? p v progress).bind fun progress =>
      persistent_visitItems bound? ps vs progress
termination_by structural ps => ps

theorem persistent_visitEntries (bound? : String → Option Value) : ∀ (es : List (Expr × Pattern))
    (found : Entries) (progress : Progress),
    Persistent fun σ => visitEntries ⟨σ, bound?⟩ es found progress
  | [], _, progress => .ok progress
  | e :: es, found, progress =>
    (persistent_visitEntry bound? e found progress).bind fun progress =>
      persistent_visitEntries bound? es found progress
termination_by structural es => es

theorem persistent_visitEntry (bound? : String → Option Value) : ∀ (e : Expr × Pattern)
    (found : Entries) (progress : Progress),
    Persistent fun σ => visitEntry ⟨σ, bound?⟩ e found progress
  | (key, p), found, progress => by
    simp only [visitEntry]
    split
    · exact .const nofun
    · split
      · exact .mismatch
      · exact persistent_visit bound? p _ _
termination_by structural e => e

end

/-- What becomes of a verdict by the time that `σ'` is known, where before it was `σ`. -/
structure Lasting (p : Pattern) (bound? : String → Option Value) (v : Value) (keys : List Value)
    (σ σ' : Outcomes) : Prop where
  /-- A verdict that has been reached stays. -/
  decided : (∀ q, p.matching ⟨σ, bound?⟩ v keys ≠ .ok (.pending q)) →
    p.matching ⟨σ', bound?⟩ v keys = p.matching ⟨σ, bound?⟩ v keys
  /-- A match that waits does so as long as the promise is pending. -/
  waits : ∀ q, p.matching ⟨σ, bound?⟩ v keys = .ok (.pending q) → σ q = none ∧
    (p.matching ⟨σ', bound?⟩ v keys = .ok (.pending q) ↔ σ' q = none)
  /-- When the promise has failed, the match fails with its error. -/
  fails : ∀ q e, p.matching ⟨σ, bound?⟩ v keys = .ok (.pending q) → σ' q = some (.error e) →
    p.matching ⟨σ', bound?⟩ v keys = .error e
  /-- A match that is tried again has fewer waits before it. -/
  onward : ∀ q, p.matching ⟨σ, bound?⟩ v keys = .ok (.pending q) → (σ' q).isSome →
    p.patience bound? v keys σ' < p.patience bound? v keys σ

/-- Matching is a function of how far the visit gets. -/
theorem matching_congr {p : Pattern} {sight sight' : Sight} {v : Value} {keys : List Value}
    (h : p.visit sight' v ⟨keys, [], []⟩ = p.visit sight v ⟨keys, [], []⟩) :
    p.matching sight' v keys = p.matching sight v keys := by
  simp only [matching, h]

theorem matching_eq_pending {p : Pattern} {sight : Sight} {v : Value} {keys : List Value}
    {q : PromiseId} : p.matching sight v keys = .ok (.pending q) ↔
      p.visit sight v ⟨keys, [], []⟩ = .error (.wait q) := by
  unfold matching
  split <;> simp_all

theorem matching_of_fails {p : Pattern} {sight : Sight} {v : Value} {keys : List Value} {e : Error}
    (h : p.visit sight v ⟨keys, [], []⟩ = .error (.fail e)) : p.matching sight v keys = .error e := by
  simp only [matching, h]

/-- Whatever else becomes known, verdicts last. -/
theorem lasting (p : Pattern) (bound? : String → Option Value) (v : Value) (keys : List Value)
    {σ σ' : Outcomes} (hσ : Later σ σ') : p.Lasting bound? v keys σ σ' := by
  have hvisit := persistent_visit bound? p v ⟨keys, [], []⟩
  refine ⟨fun hwait => ?_, fun q hq => ?_, fun q e hq he => ?_, fun q hq hknown => ?_⟩
  · exact matching_congr (hvisit.decided hσ fun q hq => hwait q (matching_eq_pending.2 hq))
  · rw [matching_eq_pending] at hq ⊢
    exact ⟨hvisit.unknown hq, hvisit.unknown, hvisit.waits hσ hq⟩
  · exact matching_of_fails (hvisit.fails hσ (matching_eq_pending.1 hq) he)
  · exact patience_lt_of_pending hq hσ hknown

end Pattern

/-! ## Along a run -/

section Run

variable {η σ α : Type}

/-- The trace leads to the store. -/
def replaySpec (η : Type) : TraceSpec η where
  Inv _ := True
  Fine _ := True
  Rel _ s t s' := s' = Event.replayAll t s
  refl _ _ := rfl
  trans := by
    rintro b s t s' u s'' rfl rfl
    exact (Event.replayAll_append t u s).symm

theorem replaySpec_deliverAll {deliver : Continuation η → Outcome → Recorded η σ Unit}
    (hd : ∀ k o, (replaySpec η).Obeys (deliver k o)) (p : PromiseId) (o : Outcome) :
    ∀ ks, (replaySpec η).Obeys (Recorded.deliverAll deliver p ks o)
  | [] => TraceSpec.obeys_note fun _ _ => rfl
  | k :: ks =>
    TraceSpec.obeys_bind (TraceSpec.obeys_note fun _ _ => rfl) fun _ =>
      TraceSpec.obeys_bind (hd k o) fun _ => replaySpec_deliverAll hd p o ks

theorem replaySpec_settle {deliver : Continuation η → Outcome → Recorded η σ Unit}
    (hd : ∀ k o, (replaySpec η).Obeys (deliver k o)) (p : PromiseId) (o : Outcome) :
    (replaySpec η).Obeys (Recorded.settle deliver p o) := by
  refine TraceSpec.obeys_bind (fun w _ => ?_) fun due => ?_
  · unfold Recorded.beginSettle
    split
    · exact ⟨trivial, rfl⟩
    · exact ⟨trivial, rfl⟩
  · cases due with
    | none => exact TraceSpec.obeys_pure ()
    | some ks => exact replaySpec_deliverAll hd p o ks

theorem replaySpec_law : Law (replaySpec η) where
  fine_of_state _ _ := trivial
  made _ := ⟨trivial, rfl⟩
  gathering _ _ := ⟨trivial, rfl⟩
  recorded _ _ _ _ _ := ⟨trivial, rfl⟩
  handled _ _ _ _ := rfl
  registered _ _ _ := ⟨trivial, rfl⟩
  answered _ _ _ := rfl
  settle hd p o _ := replaySpec_settle (fun k o => hd k o trivial) p o

/-- What is known of promises at one point of a trace is still known at a later one. -/
theorem Event.later_replayAll_take (s : Store η) (trace : List (Event η)) {i j : Nat} (hij : i ≤ j) :
    Later (replayAll (trace.take i) s).outcome? (replayAll (trace.take j) s).outcome? := by
  intro p o hp
  have hsplit : trace.take j = trace.take i ++ (trace.take j).drop i := by
    have h := List.take_append_drop i (trace.take j)
    rw [List.take_take, Nat.min_eq_left hij] at h
    exact h.symm
  rw [hsplit, replayAll_append]
  exact outcome?_replayAll _ hp

/-- Matching any value against any pattern, with any names bound and any keys, at two moments of any
run of promise operations from any store. A verdict reached at the first moment is the verdict at the
second. If the match waits at the first, then for a promise that is pending, and at the second it waits
for that promise just if it is still pending; once the promise is settled, the match fails with its
error or has fewer waits before it. The stores of the run are those the prefixes of its trace lead to,
the last of them the store in which the run ends. -/
theorem Pattern.verdict_stable (handle : η → Outcome → Routine η σ Outcome) (n : Nat)
    (r : Routine η σ α) (w : World η σ) :
    let trace := (r.record handle n w).2
    let storeAt := fun i => Event.replayAll (trace.take i) w.store
    (∀ (p : Pattern) (bound? : String → Option Value) (v : Value) (keys : List Value) (i j : Nat),
      i ≤ j → p.Lasting bound? v keys (storeAt i).outcome? (storeAt j).outcome?) ∧
    storeAt 0 = w.store ∧ storeAt trace.length = (finalWorld (r.perform handle n w)).store := by
  intro trace storeAt
  obtain ⟨-, hstore⟩ := replaySpec_law.record handle n r w trivial
  refine ⟨fun p bound? v keys i j hij => ?_, rfl, ?_⟩
  · exact p.lasting bound? v keys (Event.later_replayAll_take w.store trace hij)
  · rw [← Routine.record_fst]
    show Event.replayAll (trace.take trace.length) w.store = _
    rw [List.take_length]
    exact hstore.symm

end Run

end Deferral
