import Deferral.Proofs.Pattern.Guards
import Deferral.Proofs.Pattern.Parallel

/-!
# Matching values that promises stand for

`Shows sight x v` says that `x` is the value `v` itself, or a promise that holds `v` or is still
pending. A match that looks at such an `x`, and at names that are bound to such values, either stops
at one of those promises that is pending, or it goes exactly as the match of `v` does, and the names
it binds again show what the other match binds them to (`matching_of_matched`,
`matching_of_noMatch`).
-/

set_option autoImplicit false

namespace Deferral

namespace Sight

/-- `x` is `v`, or a promise for `v`, by `refs`, that holds `v` or is pending. -/
inductive Shows (sight : Sight) (allowed : FunctionId → Bool) (refs : PromiseId → Value → Prop) :
    Value → Value → Prop where
  | itself {v : Value} (inert : v.inert allowed = true) : Shows sight allowed refs v v
  | held {p : PromiseId} {v : Value} (ref : refs p v) (outcome : sight.outcome? p = some (.ok v))
      (inert : v.inert allowed = true) : Shows sight allowed refs (.promise p) v
  | awaited {p : PromiseId} {v : Value} (ref : refs p v) (outcome : sight.outcome? p = none)
      (inert : v.inert allowed = true) : Shows sight allowed refs (.promise p) v

variable {sight : Sight} {allowed : FunctionId → Bool} {refs : PromiseId → Value → Prop} {x v : Value}

theorem Shows.inert (h : Shows sight allowed refs x v) : v.inert allowed = true := by
  cases h <;> assumption

theorem settle_of_inert (h : v.inert allowed = true) : sight.settle v = .ok v := by
  cases v with
  | promise p => simp [Value.inert] at h
  | _ => rfl

/-- Looking through gives the value, or stops at a pending promise. -/
theorem Shows.settle_cases (h : Shows sight allowed refs x v) :
    sight.settle x = .ok v ∨
      ∃ p, refs p v ∧ sight.outcome? p = none ∧ sight.settle x = .error (.wait p) := by
  cases h with
  | itself inert => exact .inl (settle_of_inert inert)
  | held ref outcome inert => exact .inl (by simp only [settle, outcome])
  | awaited ref outcome inert => exact .inr ⟨_, ref, outcome, by simp only [settle, outcome]⟩

end Sight

variable {sight sight' : Sight} {allowed : FunctionId → Bool} {refs : PromiseId → Value → Prop}

/-- What shows a value stands in for it in a match. -/
theorem Sight.standIn_shows : StandIn sight sight' (sight.Shows allowed refs)
    (fun x v => x = v ∧ v.inert allowed = true)
    (fun q => ∃ w, refs q w ∧ sight.outcome? q = none) (fun _ => True) where
  plain h := settle_of_inert h.inert
  sees {x v} h := by
    have hsame : v.SameForm (fun x v => x = v ∧ v.inert allowed = true) v := by
      refine Value.sameForm_itself (Value.isPromise_of_inert h.inert) ?_ ?_ ?_ <;>
        rintro parts rfl part hpart
      · exact ⟨rfl, (Value.inert_tuple parts).1 h.inert part hpart⟩
      · exact ⟨rfl, (Value.inert_seq parts).1 h.inert part hpart⟩
      · exact ⟨rfl, ((Value.inert_dict parts).1 h.inert part hpart).2⟩
    rcases h.settle_cases with hs | ⟨p, ref, outcome, hs⟩
    · exact .inl ⟨v, hs, hsame, fun _ _ => rfl⟩
    · exact .inr ⟨p, ⟨v, ref, outcome⟩, hs⟩
  part := by
    rintro x _ ⟨rfl, inert⟩
    exact .itself inert
  rest {xs vs} h := by
    obtain rfl : xs = vs := List.forall₂_eq_eq_eq ▸ h.imp fun _ _ h => h.1
    exact .itself ((Value.inert_seqOf _).2 fun v hv => (List.forall₂_same.1 h v hv).2)

/-- The names that the program has bound show the same values. -/
def Sight.BoundShows (sight sight' : Sight) (allowed : FunctionId → Bool)
    (refs : PromiseId → Value → Prop) : Prop :=
  ∀ name, Option.Rel (sight.Shows allowed refs) (sight.bound? name) (sight'.bound? name)

section

variable (hbound : sight.BoundShows sight' allowed refs) {p : Pattern} {x v : Value}
  (hx : sight.Shows allowed refs x v) (keys : List Value)
include hbound hx

/-- The match waits for a promise, or its verdict is that of the match of the value. -/
theorem Pattern.matching_of_shows :
    (∃ q, p.matching sight x keys = .ok (.pending q) ∧ ∃ w, refs q w ∧ sight.outcome? q = none) ∨
    SameVerdict (sight.Shows allowed refs) (p.matching sight x keys) (p.matching sight' v keys) := by
  refine Sight.standIn_shows.matching (fun q _ => ?_) (.inl ⟨hbound, fun hx hs => ?_⟩) hx keys
  · cases q <;> trivial
  · rcases hx.settle_cases with hv | ⟨p, -, -, hp⟩
    · exact Except.ok.inj (hs.symm.trans hv)
    · rw [hp] at hs
      cases hs

/-- Where the values themselves match, the match waits for a promise or binds what shows the same
bindings. -/
theorem Pattern.matching_of_matched {m' : Match} (h : p.matching sight' v keys = .ok (.matched m')) :
    (∃ q w, p.matching sight x keys = .ok (.pending q) ∧ refs q w ∧ sight.outcome? q = none) ∨
    ∃ m, p.matching sight x keys = .ok (.matched m) ∧
      List.Forall₂ (fun b b' => b.1 = b'.1 ∧ sight.Shows allowed refs b.2 b'.2)
        m.bindings m'.bindings ∧ m.guards = m'.guards := by
  rcases matching_of_shows hbound hx keys with ⟨q, hq, w, ref, outcome⟩ | hsame
  · exact .inl ⟨q, w, hq, ref, outcome⟩
  · rw [h] at hsame
    generalize p.matching sight x keys = verdict at hsame ⊢
    cases hsame with
    | matched bindings guards => exact .inr ⟨_, rfl, bindings, guards⟩

/-- Where the values themselves do not fit, the match waits for a promise or does not fit. -/
theorem Pattern.matching_of_noMatch (h : p.matching sight' v keys = .ok .noMatch) :
    (∃ q w, p.matching sight x keys = .ok (.pending q) ∧ refs q w ∧ sight.outcome? q = none) ∨
    p.matching sight x keys = .ok .noMatch := by
  rcases matching_of_shows hbound hx keys with ⟨q, hq, w, ref, outcome⟩ | hsame
  · exact .inl ⟨q, w, hq, ref, outcome⟩
  · rw [h] at hsame
    generalize p.matching sight x keys = verdict at hsame ⊢
    cases hsame with
    | noMatch => exact .inr rfl

end

/-- A match of inert values waits for nothing, and what it binds is inert. -/
theorem Pattern.matching_of_inert {p : Pattern} {v : Value} {keys : List Value} {verdict : Matching}
    (hbound : ∀ name x, sight.bound? name = some x → x.inert allowed = true)
    (hv : v.inert allowed = true) (h : p.matching sight v keys = .ok verdict) :
    verdict = .noMatch ∨ ∃ m, verdict = .matched m ∧
      (∀ b ∈ m.bindings, b.2.inert allowed = true) ∧ ∀ g ∈ m.guards, g ∈ p.parts := by
  have hself : sight.BoundShows sight allowed fun _ _ => False := by
    intro name
    cases hb : sight.bound? name with
    | none => exact .none
    | some x => exact .some (.itself (hbound name x hb))
  rcases matching_of_shows hself (.itself hv) keys with ⟨q, -, w, ref, -⟩ | hsame
  · exact ref.elim
  · rw [h] at hsame
    cases hsame with
    | noMatch => exact .inl rfl
    | matched bindings =>
      refine .inr ⟨_, rfl, fun b hb => ?_, fun g hg => ?_⟩
      · exact (List.forall₂_same.1 bindings b hb).2.inert
      · exact guards_subset_parts p g (guards_of_matched h ▸ hg)

end Deferral
