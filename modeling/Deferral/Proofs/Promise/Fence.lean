import Deferral.Proofs.Promise.Steps

/-!
# Old promises and new ones

A `Fence` divides the promises and gathers of a store into old ones and new ones. What is done on the
new side may look at old promises and wait for them, but it settles new promises only: `Store.Grown`
says what then becomes of a store. An old promise stays as it is, except that more continuations may
wait for it, and each of those is for something new; old gathers do not change at all.

`Store.Fenced` is the invariant behind that: whatever waits for a new promise is for something new. The
lemmas of this module show of each step on the store that it keeps the invariant, and that it lets the
store grow, provided that what it settles or registers is new.
-/

set_option autoImplicit false

namespace Deferral

/-- Which promises and gathers count as new: those from these numbers on. -/
structure Fence where
  promises : Nat
  gathers : Nat

variable {η : Type}

/-- The state with more continuations waiting, if any can wait. -/
def PromiseState.append (st : PromiseState η) (more : List (Continuation η)) : PromiseState η :=
  match st with
  | .pending waiting => .pending (waiting ++ more)
  | settled => settled

namespace PromiseState

theorem append_nil (st : PromiseState η) : st.append [] = st := by
  cases st <;> simp [append]

theorem append_append (st : PromiseState η) (more more' : List (Continuation η)) :
    (st.append more).append more' = st.append (more ++ more') := by
  cases st <;> simp [append]

theorem outcome?_append (st : PromiseState η) (more : List (Continuation η)) :
    (st.append more).outcome? = st.outcome? := by
  cases st <;> rfl

end PromiseState

namespace Store

/-- Everything that there is so far is old. -/
def fence (s : Store η) : Fence := ⟨s.promises.size, s.gathers.size⟩

variable (b : Fence)

/-- The promise has been made, and it is new. -/
def Owns (s : Store η) (p : PromiseId) : Prop := b.promises ≤ p.index ∧ s.Has p

/-- The continuation is for something new: it settles a new promise, or brings an operand to a new
gather. -/
def Admits (s : Store η) : Continuation η → Prop
  | .adopt target => s.Owns b target
  | .derive target _ => s.Owns b target
  | .gather id _ => b.gathers ≤ id.index ∧ id.index < s.gathers.size
  | .notify _ => True

/-- What waits for a new promise is for something new, and so is the result of a new gather. -/
structure Fenced (s : Store η) : Prop where
  promises : b.promises ≤ s.promises.size
  gathers : b.gathers ≤ s.gathers.size
  waiting : ∀ p ks, b.promises ≤ p.index → s.state p = .pending ks → ∀ k ∈ ks, s.Admits b k
  results : ∀ i g, b.gathers ≤ i → s.gathers[i]? = some g → s.Owns b g.result

/-- What can become of a store when only new promises are settled. -/
structure Grown (s s' : Store η) : Prop where
  promises : s.promises.size ≤ s'.promises.size
  gathers : s.gathers.size ≤ s'.gathers.size
  old : ∀ p : PromiseId, p.index < b.promises →
    ∃ more, s'.state p = (s.state p).append more ∧ ∀ k ∈ more, s'.Admits b k
  kept : ∀ i < b.gathers, s'.gathers[i]? = s.gathers[i]?

variable {b} {s s' s'' : Store η} {p : PromiseId} {k : Continuation η}

/-- Where everything is old, nothing waits for anything new. -/
theorem fenced_fence (s : Store η) : s.Fenced s.fence where
  promises := Nat.le_refl _
  gathers := Nat.le_refl _
  waiting p ks hp hks k hk := by
    rw [state_of_not_has (Nat.not_lt.2 hp)] at hks
    obtain rfl := PromiseState.pending.inj hks
    exact absurd hk List.not_mem_nil
  results i g hi hg := by
    rw [Array.getElem?_eq_none hi] at hg
    cases hg

theorem Owns.mono (h : s.Owns b p) (hs : s.promises.size ≤ s'.promises.size) : s'.Owns b p :=
  ⟨h.1, Nat.lt_of_lt_of_le h.2 hs⟩

theorem Admits.mono (h : s.Admits b k) (hp : s.promises.size ≤ s'.promises.size)
    (hg : s.gathers.size ≤ s'.gathers.size) : s'.Admits b k := by
  cases k with
  | adopt t => exact Owns.mono h hp
  | derive t f => exact Owns.mono h hp
  | gather id i => exact ⟨h.1, Nat.lt_of_lt_of_le h.2 hg⟩
  | notify f => trivial

/-! ## Growing -/

namespace Grown

theorem refl (s : Store η) : s.Grown b s where
  promises := Nat.le_refl _
  gathers := Nat.le_refl _
  old _ _ := ⟨[], (PromiseState.append_nil _).symm, fun _ hk => absurd hk List.not_mem_nil⟩
  kept _ _ := rfl

theorem owns (h : s.Grown b s') (hp : s.Owns b p) : s'.Owns b p := hp.mono h.promises

theorem admits (h : s.Grown b s') (hk : s.Admits b k) : s'.Admits b k :=
  hk.mono h.promises h.gathers

theorem trans (h : s.Grown b s') (h' : s'.Grown b s'') : s.Grown b s'' where
  promises := Nat.le_trans h.promises h'.promises
  gathers := Nat.le_trans h.gathers h'.gathers
  old p hp := by
    obtain ⟨more, hs, hmore⟩ := h.old p hp
    obtain ⟨more', hs', hmore'⟩ := h'.old p hp
    refine ⟨more ++ more', by rw [hs', hs, PromiseState.append_append], fun k hk => ?_⟩
    rcases List.mem_append.1 hk with hk | hk
    · exact h'.admits (hmore k hk)
    · exact hmore' k hk
  kept i hi := (h'.kept i hi).trans (h.kept i hi)

/-- An old promise is settled if it was, with the same outcome. -/
theorem outcome?_old (h : s.Grown b s') (hp : p.index < b.promises) :
    s'.outcome? p = s.outcome? p := by
  obtain ⟨more, hs, -⟩ := h.old p hp
  rw [outcome?, outcome?, hs, PromiseState.outcome?_append]

/-- States stay the same, and there are only more promises. -/
theorem of_state_eq (hp : s.promises.size ≤ s'.promises.size)
    (hg : s.gathers.size ≤ s'.gathers.size) (hstate : ∀ p, s'.state p = s.state p)
    (hkept : ∀ i < b.gathers, s'.gathers[i]? = s.gathers[i]?) : s.Grown b s' :=
  ⟨hp, hg, fun p _ => ⟨[], by rw [hstate, PromiseState.append_nil],
    fun k hk => absurd hk List.not_mem_nil⟩, hkept⟩

end Grown

/-! ## Steps on the store -/

theorem size_setState (s : Store η) (p : PromiseId) (x : PromiseState η) :
    (s.setState p x).promises.size = s.promises.size := by
  simp [setState]

theorem size_register (p : PromiseId) (k : Continuation η) (s : Store η) :
    (s.register p k).2.promises.size = s.promises.size := by
  rcases register_cases p k s with ⟨ks, hp, hs⟩ | ⟨o, hp, hs⟩
  · rw [hs]
    exact s.size_setState p _
  · rw [hs]

theorem gathers_register (p : PromiseId) (k : Continuation η) (s : Store η) :
    (s.register p k).2.gathers = s.gathers := by
  rcases register_cases p k s with ⟨ks, hp, hs⟩ | ⟨o, hp, hs⟩ <;> exact congrArg (·.2.gathers) hs

theorem size_settle (p : PromiseId) (o : Outcome) (s : Store η) :
    (s.settle p o).2.promises.size = s.promises.size := by
  rcases settle_cases p o s with ⟨ks, hp, hs⟩ | ⟨o', hp, hs⟩
  · rw [hs]
    exact s.size_setState p _
  · rw [hs]

theorem gathers_settle (p : PromiseId) (o : Outcome) (s : Store η) :
    (s.settle p o).2.gathers = s.gathers := by
  rcases settle_cases p o s with ⟨ks, hp, hs⟩ | ⟨o', hp, hs⟩ <;> exact congrArg (·.2.gathers) hs

/-- An outcome is put into a gather, if there is one. -/
theorem record_cases (id : GatherId) (place : Nat) (o : Outcome) (s : Store η) :
    (s.gathers[id.index]? = none ∧ s.record id place o = (none, s)) ∨
    ∃ g, s.gathers[id.index]? = some g ∧
      s.record id place o =
        ((g.record place o).2.map fun combined => ((g.record place o).1.result, combined),
          { s with gathers := s.gathers.setIfInBounds id.index (g.record place o).1 }) := by
  unfold record
  cases s.gathers[id.index]? with
  | none => exact .inl ⟨rfl, rfl⟩
  | some g => exact .inr ⟨g, rfl, rfl⟩

end Store

theorem Gather.result_record (g : Gather) (place : Nat) (o : Outcome) :
    (g.record place o).1.result = g.result := by
  unfold Gather.record
  split
  · rfl
  · cases o with
    | ok value =>
      dsimp only
      split <;> rfl
    | error e => rfl

namespace Store

variable {b : Fence} {s s' s'' : Store η} {p : PromiseId} {k : Continuation η}

section

variable (h : s.Fenced b)
include h

theorem Fenced.setState (p : PromiseId) {x : PromiseState η}
    (hx : b.promises ≤ p.index → ∀ ks, x = .pending ks → ∀ k ∈ ks, s.Admits b k) :
    (s.setState p x).Fenced b := by
  have hsize : s.promises.size ≤ (s.setState p x).promises.size :=
    Nat.le_of_eq (s.size_setState p x).symm
  refine ⟨Nat.le_trans h.promises hsize, h.gathers, fun q ks hq hks k hk => ?_,
    fun i g hi hg => (h.results i g hi hg).mono hsize⟩
  suffices s.Admits b k from this.mono hsize (Nat.le_refl _)
  by_cases hqp : q = p
  · subst hqp
    by_cases hhas : s.Has q
    · rw [state_setState_self hhas] at hks
      exact hx hq ks hks k hk
    · rw [state_of_not_has fun hh => hhas (has_setState.1 hh)] at hks
      obtain rfl := PromiseState.pending.inj hks
      exact absurd hk List.not_mem_nil
  · rw [state_setState_ne hqp] at hks
    exact h.waiting q ks hq hks k hk

theorem Fenced.fresh : s.fresh.2.Fenced b where
  promises := by simpa [Store.fresh] using Nat.le_succ_of_le h.promises
  gathers := h.gathers
  waiting p ks hp hks k hk := by
    rw [state_fresh] at hks
    exact (h.waiting p ks hp hks k hk).mono (by simp [Store.fresh]) (Nat.le_refl _)
  results i g hi hg := (h.results i g hi hg).mono (by simp [Store.fresh])

theorem Fenced.owns_fresh : s.fresh.2.Owns b s.fresh.1 :=
  ⟨h.promises, has_fresh.2 (.inr rfl)⟩

theorem Fenced.register (p : PromiseId) (hk : s.Admits b k) : (s.register p k).2.Fenced b := by
  rcases register_cases p k s with ⟨ks, hp, hs⟩ | ⟨o, hp, hs⟩
  · rw [hs]
    refine h.setState p fun hnew ks' hks' l hl => ?_
    obtain rfl := PromiseState.pending.inj hks'
    rcases List.mem_append.1 hl with hl | hl
    · exact h.waiting p ks hnew hp l hl
    · rw [List.mem_singleton.1 hl]
      exact hk
  · rw [hs]
    exact h

theorem Fenced.settle (p : PromiseId) (o : Outcome) : (s.settle p o).2.Fenced b := by
  rcases settle_cases p o s with ⟨ks, hp, hs⟩ | ⟨o', hp, hs⟩
  · rw [hs]
    exact h.setState p fun _ ks hks => absurd hks (PromiseState.ofOutcome_ne_pending o ks)
  · rw [hs]
    exact h

/-- What is due when a new promise is settled is for something new. -/
theorem Fenced.admits_of_settle (hp : s.Owns b p) {o : Outcome} (hk : k ∈ (s.settle p o).1) :
    s.Admits b k := by
  rcases settle_cases p o s with ⟨ks, hks, hs⟩ | ⟨o', _, hs⟩
  · rw [hs] at hk
    exact h.waiting p ks hp.1 hks k hk
  · rw [hs] at hk
    exact absurd hk List.not_mem_nil

theorem Fenced.addGather {g : Gather} (hg : s.Owns b g.result) : (s.addGather g).2.Fenced b where
  promises := h.promises
  gathers := by simpa [Store.addGather] using Nat.le_succ_of_le h.gathers
  waiting p ks hp hks k hk :=
    (h.waiting p ks hp hks k hk).mono (Nat.le_refl _) (by simp [Store.addGather])
  results i g' hi hg' := by
    have hpush : (s.addGather g).2.gathers = s.gathers.push g := rfl
    rw [hpush, Array.getElem?_push] at hg'
    split at hg'
    · obtain rfl := Option.some.inj hg'
      exact hg
    · exact h.results i g' hi hg'

theorem Fenced.admits_addGather (g : Gather) (place : Nat) :
    (s.addGather g).2.Admits b (.gather (s.addGather g).1 place) :=
  ⟨h.gathers, by simp [Store.addGather]⟩

theorem Fenced.record (id : GatherId) (place : Nat) (o : Outcome) :
    (s.record id place o).2.Fenced b := by
  rcases record_cases id place o s with ⟨-, hs⟩ | ⟨g, hg, hs⟩
  · rw [hs]
    exact h
  · rw [hs]
    refine ⟨h.promises, by simpa using h.gathers, fun p ks hp hks k hk => ?_, fun i g' hi hg' => ?_⟩
    · exact (h.waiting p ks hp hks k hk).mono (Nat.le_refl _) (by simp)
    · rw [Array.getElem?_setIfInBounds] at hg'
      split at hg'
      · rename_i hid
        split at hg'
        · obtain rfl := Option.some.inj hg'
          have hresult := h.results i g hi (hid ▸ hg)
          rwa [← g.result_record place o] at hresult
        · cases hg'
      · exact h.results i g' hi hg'

/-- A new gather has a new result. -/
theorem Fenced.owns_of_record {id : GatherId} {place : Nat} (hid : s.Admits b (.gather id place))
    {o : Outcome} {found : PromiseId × Outcome} (hfound : (s.record id place o).1 = some found) :
    (s.record id place o).2.Owns b found.1 := by
  rcases record_cases id place o s with ⟨-, hs⟩ | ⟨g, hg, hs⟩
  · rw [hs] at hfound
    cases hfound
  · rw [hs] at hfound ⊢
    obtain ⟨combined, -, rfl⟩ := Option.map_eq_some_iff.1 hfound
    dsimp only
    rw [g.result_record]
    exact h.results _ g hid.1 hg

end

namespace Grown

theorem fresh (b : Fence) (s : Store η) : s.Grown b s.fresh.2 :=
  of_state_eq (by simp [Store.fresh]) (Nat.le_refl _) (state_fresh s) fun _ _ => rfl

theorem register (p : PromiseId) (hk : s.Admits b k) : s.Grown b (s.register p k).2 := by
  have hadmits : (s.register p k).2.Admits b k :=
    hk.mono (Nat.le_of_eq (size_register p k s).symm) (Nat.le_of_eq (by rw [gathers_register]))
  rcases register_cases p k s with ⟨ks, hp, hs⟩ | ⟨o, hp, hs⟩
  · rw [hs] at hadmits ⊢
    refine ⟨Nat.le_of_eq (s.size_setState p _).symm, Nat.le_refl _, fun q _ => ?_, fun _ _ => rfl⟩
    by_cases hqp : q = p
    · subst hqp
      by_cases hhas : s.Has q
      · refine ⟨[k], by rw [state_setState_self hhas, hp]; rfl, fun l hl => ?_⟩
        rw [List.mem_singleton.1 hl]
        exact hadmits
      · refine ⟨[], ?_, fun _ hl => absurd hl List.not_mem_nil⟩
        rw [state_of_not_has fun hh => hhas (has_setState.1 hh), state_of_not_has hhas]
        rfl
    · exact ⟨[], by rw [state_setState_ne hqp, PromiseState.append_nil],
        fun _ hl => absurd hl List.not_mem_nil⟩
  · rw [hs]
    exact refl s

theorem settle (hp : s.Owns b p) (o : Outcome) : s.Grown b (s.settle p o).2 := by
  refine ⟨Nat.le_of_eq (size_settle p o s).symm, Nat.le_of_eq (by rw [gathers_settle]), fun q hq => ?_,
    fun i _ => by rw [gathers_settle]⟩
  have hqp : q ≠ p := fun he => absurd hp.1 (Nat.not_le.2 (he ▸ hq))
  exact ⟨[], by rw [state_settle_ne hqp, PromiseState.append_nil],
    fun _ hl => absurd hl List.not_mem_nil⟩

theorem addGather (h : s.Fenced b) (g : Gather) : s.Grown b (s.addGather g).2 := by
  refine of_state_eq (Nat.le_refl _) (by simp [Store.addGather]) (state_addGather g s) fun i hi => ?_
  have hpush : (s.addGather g).2.gathers = s.gathers.push g := rfl
  rw [hpush, Array.getElem?_push, if_neg (Nat.ne_of_lt (Nat.lt_of_lt_of_le hi h.gathers))]

theorem record {id : GatherId} {place : Nat} (hid : s.Admits b (.gather id place)) (o : Outcome) :
    s.Grown b (s.record id place o).2 := by
  refine of_state_eq (Nat.le_of_eq (size_record id place o s).symm) ?_ (state_record id place o s)
    fun i hi => ?_
  · rcases record_cases id place o s with ⟨-, hs⟩ | ⟨g, -, hs⟩
    · exact Nat.le_of_eq (by rw [hs])
    · rw [hs]
      simp
  · rcases record_cases id place o s with ⟨-, hs⟩ | ⟨g, -, hs⟩
    · rw [hs]
    · rw [hs, Array.getElem?_setIfInBounds, if_neg]
      exact fun he => absurd hid.1 (Nat.not_le.2 (he ▸ hi))

end Grown

end Store

end Deferral
