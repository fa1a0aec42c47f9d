import Deferral.Proofs.Pattern.Parallel
import Deferral.Proofs.Pattern.Patience

/-!
# Matching values with promises inside

`Value.StandsFor destiny v' v` says that `v'` is `v` with parts replaced by promises, at any depth,
where `destiny` says what each of those promises holds or will be given. Some of them may be pending. A
match of `v'` then stops at one that is, or it goes as the match of `v` does, and what it binds stands
for what the other match binds (`Pattern.matching_parallels`).

This needs a pattern that only takes values apart. A literal that is not a scalar is compared with the
inside of a value without looking through the promises there, and so is what a name is bound to already;
hence the names have to be new.
-/

set_option autoImplicit false

namespace Deferral

namespace Value

/-! ## Standing for a value -/

/-- `v'` is `v` with parts replaced by promises, which hold or will be given what is in the place of
the part. -/
inductive StandsFor (destiny : PromiseId → Option Value) : Value → Value → Prop
  | itself {v : Value} (free : v.promiseFree = true) : StandsFor destiny v v
  | promise {p : PromiseId} {w v : Value} (holds : destiny p = some w) (value : w.isPromise = false)
      (stands : StandsFor destiny w v) : StandsFor destiny (.promise p) v
  | tuple {ws vs : List Value} (length : ws.length = vs.length)
      (items : ∀ {w v}, (w, v) ∈ ws.zip vs → StandsFor destiny w v) :
      StandsFor destiny (.tuple ws) (.tuple vs)
  | seq {t s : Seq Value} (length : t.toList.length = s.toList.length)
      (items : ∀ {w v}, (w, v) ∈ t.toList.zip s.toList → StandsFor destiny w v) :
      StandsFor destiny (.seq t) (.seq s)
  | dict {ds es : List (Value × Value)} (length : ds.length = es.length)
      (keys : ∀ {d e}, (d, e) ∈ ds.zip es → d.1 = e.1) (free : ∀ e ∈ es, e.1.promiseFree = true)
      (values : ∀ {d e}, (d, e) ∈ ds.zip es → StandsFor destiny d.2 e.2) :
      StandsFor destiny (.dict ds) (.dict es)

/-- Neither a promise nor a collection. -/
def isScalar : Value → Bool
  | .set _ => false
  | v => v.isAtom

variable {destiny : PromiseId → Option Value} {w v : Value}

theorem StandsFor.promiseFree (h : StandsFor destiny w v) : v.promiseFree = true := by
  induction h with
  | itself free => exact free
  | promise _ _ _ ih => exact ih
  | tuple length items ih =>
    rw [promiseFree_tuple]
    exact fun v hv => (exists_left_of_mem (List.forall₂_iff_zip.2 ⟨length, ih⟩) hv).elim fun _ h => h.2
  | seq length items ih =>
    rw [promiseFree_seq]
    exact fun v hv => (exists_left_of_mem (List.forall₂_iff_zip.2 ⟨length, ih⟩) hv).elim fun _ h => h.2
  | dict length _ free _ ih =>
    rw [promiseFree_dict]
    refine fun e he => ⟨free e he, ?_⟩
    exact (exists_left_of_mem (List.forall₂_iff_zip.2 ⟨length, ih⟩) he).elim fun _ h => h.2

theorem StandsFor.sameForm (h : StandsFor destiny w v) (hw : w.isPromise = false) :
    w.SameForm (StandsFor destiny) v := by
  cases h with
  | promise => cases hw
  | tuple length items => exact .tuple (List.forall₂_iff_zip.2 ⟨length, items⟩)
  | seq length items => exact .seq (List.forall₂_iff_zip.2 ⟨length, items⟩)
  | dict length keys _ values =>
    exact .dict (List.forall₂_iff_zip.2 ⟨length, fun h => ⟨keys h, values h⟩⟩)
  | itself free =>
    refine sameForm_itself hw ?_ ?_ ?_ <;> rintro parts rfl part hpart
    · exact .itself ((promiseFree_tuple parts).1 free part hpart)
    · exact .itself ((promiseFree_seq parts).1 free part hpart)
    · exact .itself ((promiseFree_dict parts).1 free part hpart).2

theorem StandsFor.seqOf {ws vs : List Value} (h : List.Forall₂ (StandsFor destiny) ws vs) :
    StandsFor destiny (.seqOf ws) (.seqOf vs) := by
  obtain ⟨length, items⟩ := List.forall₂_iff_zip.1 h
  refine .seq ?_ ?_
  · rwa [Seq.toList_ofList, Seq.toList_ofList]
  · rw [Seq.toList_ofList, Seq.toList_ofList]
    exact items

/-- A scalar is equal to both or to neither. -/
theorem SameForm.beq_scalar {P : Value → Value → Prop} (h : w.SameForm P v) {expected : Value}
    (hs : expected.isScalar = true) :
    (w == expected) = (v == expected) := by
  cases h with
  | atom => rfl
  | _ =>
    cases expected with
    | tuple | seq | dict => cases hs
    | _ => rfl

end Value

open Value (StandsFor)

/-- Every promise that has a destiny is pending or holds what it is to hold. -/
def Sight.Keeps (sight : Sight) (destiny : PromiseId → Option Value) : Prop :=
  ∀ p v, destiny p = some v → sight.outcome? p = none ∨ sight.outcome? p = some (.ok v)

namespace Pattern

/-- The pattern is not a literal that has parts. -/
def scalarLiteral : Pattern → Bool
  | .literal v => v.isScalar
  | _ => true

end Pattern

/-- What stands for a value stands in for it in a match, if literals are scalars. -/
theorem Sight.Keeps.standIn {sight sight' : Sight} {destiny : PromiseId → Option Value}
    (hkeeps : sight.Keeps destiny) : StandIn sight sight' (StandsFor destiny) (StandsFor destiny)
      (fun q => (destiny q).isSome ∧ sight.outcome? q = none) (·.isScalar = true) where
  plain h := Sight.settle_of_promiseFree h.promiseFree
  sees {x v} h := by
    have hsees : ∀ {w}, sight.settle x = .ok w → StandsFor destiny w v → w.isPromise = false →
        sight.Sees (StandsFor destiny) (·.isScalar = true) x v w :=
      fun hx hw hpromise => ⟨hx, hw.sameForm hpromise, fun _ => (hw.sameForm hpromise).beq_scalar⟩
    cases h with
    | @promise p w _ holds value stands =>
      rcases hkeeps p w holds with hp | hp
      · exact .inr ⟨p, ⟨holds ▸ rfl, hp⟩, by rw [Sight.settle, hp]⟩
      · exact .inl ⟨w, hsees (by rw [Sight.settle, hp]) stands value⟩
    | itself free =>
      have hpromise : x.isPromise = false := by
        cases x with
        | promise => cases free
        | _ => rfl
      exact .inl ⟨x, hsees (Sight.settle_of_promiseFree free) (.itself free) hpromise⟩
    | tuple length items => exact .inl ⟨_, hsees rfl (.tuple length items) rfl⟩
    | seq length items => exact .inl ⟨_, hsees rfl (.seq length items) rfl⟩
    | dict length keys free values => exact .inl ⟨_, hsees rfl (.dict length keys free values) rfl⟩
  part h := h
  rest h := .seqOf h

/-! ## Whole matches -/

/-- The pattern only takes values apart: its literals are scalars, its names are new and different. -/
structure Pattern.TakesApart (bound? : String → Option Value) (p : Pattern) : Prop where
  scalar : ∀ q ∈ p.within, q.scalarLiteral = true
  distinct : p.names.Nodup
  unbound : ∀ name ∈ p.names, bound? name = none

/-- The same names in the same order, bound to what stands for the values of the others. -/
abbrev BindingsStand (destiny : PromiseId → Option Value) : List (String × Value) →
    List (String × Value) → Prop :=
  List.Forall₂ fun b' b => b'.1 = b.1 ∧ StandsFor destiny b'.2 b.2

theorem Pattern.matching_parallels {sight sight' : Sight} {destiny : PromiseId → Option Value}
    (hkeeps : sight.Keeps destiny) (hscope : sight'.bound? = sight.bound?) {p : Pattern}
    (hp : p.TakesApart sight.bound?) {v' v : Value} (h : StandsFor destiny v' v) (keys : List Value) :
    (∃ q, p.matching sight v' keys = .ok (.pending q) ∧ (destiny q).isSome ∧
      sight.outcome? q = none) ∨
    SameVerdict (StandsFor destiny) (p.matching sight v' keys) (p.matching sight' v keys) := by
  have hfresh : sight.Fresh sight' [] p.names :=
    ⟨hp.distinct, fun _ _ => nofun, fun name hname =>
      ⟨hp.unbound name hname, hscope ▸ hp.unbound name hname⟩⟩
  refine hkeeps.standIn.matching (fun q hq => ?_) (.inr hfresh) h keys
  cases q with
  | literal v => exact hp.scalar _ hq
  | _ => trivial

/-- A pattern that fits still does when more is known of promises. -/
theorem Pattern.matching_steady {σ σ' : Outcomes} (hσ : σ.Later σ') {bound? : String → Option Value}
    {p : Pattern} {v : Value} {keys : List Value} {found : Match}
    (h : p.matching ⟨σ, bound?⟩ v keys = .ok (.matched found)) :
    p.matching ⟨σ', bound?⟩ v keys = .ok (.matched found) := by
  unfold matching at h ⊢
  cases hvisit : p.visit ⟨σ, bound?⟩ v ⟨keys, [], []⟩ with
  | ok progress =>
    rw [hvisit] at h
    rwa [(settling_visit bound? p v ⟨keys, [], []⟩).steady hσ hvisit]
  | error stop =>
    rw [hvisit] at h
    cases stop <;> cases h

/-- For a promise-free value it makes no difference what is known of promises. -/
theorem Pattern.matching_of_promiseFree {sight : Sight} {p : Pattern} (hp : p.TakesApart sight.bound?)
    {v : Value} (hv : v.promiseFree = true) (keys : List Value) :
    p.matching sight v keys = p.matching ⟨fun _ => none, sight.bound?⟩ v keys := by
  let blind : Sight := ⟨fun _ => none, sight.bound?⟩
  have hscope : blind.bound? = sight.bound? := rfl
  have hkeeps : sight.Keeps fun _ => none := fun _ _ h => by cases h
  have hsteady : ∀ found, p.matching blind v keys = .ok (.matched found) →
      p.matching sight v keys = .ok (.matched found) :=
    fun _ => matching_steady fun _ _ h => by cases h
  change p.matching sight v keys = p.matching blind v keys
  rcases matching_parallels hkeeps hscope hp (.itself hv) keys with ⟨q, -, hq, -⟩ | hsame
  · cases hq
  · generalize p.matching sight v keys = verdict at hsame hsteady ⊢
    generalize p.matching blind v keys = verdict' at hsame hsteady ⊢
    cases hsame with
    | matched => exact hsteady _ rfl
    | noMatch => rfl
    | fails r => rfl

end Deferral
