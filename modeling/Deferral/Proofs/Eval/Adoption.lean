import Deferral.Proofs.Eval.Private
import Deferral.Proofs.Eval.Turns

/-!
# Adoption

A promise that has once been made to adopt another one is settled no later than that one, whatever else
happens: until it is settled, the adoption waits for the other one or is in flight (`adoption`).
-/

set_option autoImplicit false

namespace Deferral

/-- Two promises of a machine, of which the second is to adopt the first. -/
structure Adoption where
  source : PromiseId
  target : PromiseId

namespace Adoption

/-- Both promises have been made, in a machine in which no promise holds a promise. -/
structure Made (A : Adoption) (m : Machine) : Prop where
  flat : m.store.Flat
  source : m.store.Has A.source
  target : m.store.Has A.target

/-- The target has an outcome, or the adoption waits for the source, or is in flight. -/
def Holds (A : Adoption) (F : InFlight) (s : Store Handler) : Prop :=
  (∃ o, s.outcome? A.target = some o) ∨ (A.source, .adopt A.target) ∈ s.waits + F

variable {A : Adoption} {F : InFlight} {m m' : Machine} {p t : PromiseId} {o : Outcome}
  {k : Continuation Handler} {ks : List (Continuation Handler)}

theorem Made.evolves (h : A.Made m) (hevolves : Evolves m m') : A.Made m' :=
  ⟨hevolves.flat h.flat, hevolves.has h.source, hevolves.has h.target⟩

namespace Holds

/-- A continuation that is not the adoption is not missed. -/
theorem drop {s : Store Handler} (h : A.Holds ((p, k) ::ₘ F) s)
    (hk : p = A.source → k ≠ .adopt A.target) : A.Holds F s := by
  refine h.imp id fun hmem => ?_
  rw [Multiset.add_cons] at hmem
  refine (Multiset.mem_cons.1 hmem).resolve_left fun he => ?_
  obtain ⟨hp, he⟩ := Prod.mk.inj he
  exact hk hp.symm he.symm

theorem passed (hmade : A.Made m) (h : A.Holds F m.store) (hpassed : Passed m m') :
    A.Holds F m'.store := by
  rcases h with ⟨o, ho⟩ | hmem
  · exact .inl ⟨o, hpassed.evolves.outcome? ho⟩
  · refine .inr (Multiset.mem_add.2 ((Multiset.mem_add.1 hmem).imp_left fun hwaits => ?_))
    obtain ⟨ks, hks, hk⟩ := Store.mem_waits.1 hwaits
    obtain ⟨more, hstate, -⟩ := hpassed.grown.store.old A.source hmade.source
    rw [hks] at hstate
    exact Store.mem_waits.2 ⟨ks ++ more, hstate, List.mem_append_left more hk⟩

theorem settle (h : A.Holds F m.store) (ho : Concrete o) (hks : m.store.state t = .pending ks) :
    A.Holds (Continuation.awaiting t ks + F) (m.store.setState t (.ofOutcome o)) := by
  rcases h with ⟨o', ho'⟩ | hmem
  · exact .inl ⟨o', (evolves_settle hks ho).outcome? ho'⟩
  · have hwaits := Store.waits_settle_add t o m.store
    rw [Store.settle_pending hks] at hwaits
    refine .inr ?_
    rwa [← add_assoc, hwaits]

theorem register (hmade : A.Made m) (h : A.Holds ((p, k) ::ₘ F) m.store)
    (hks : m.store.state p = .pending ks) :
    A.Holds F (m.store.setState p (.pending (ks ++ [k]))) := by
  rcases h with ⟨o, ho⟩ | hmem
  · exact .inl ⟨o, (evolves_register hks k).outcome? ho⟩
  · by_cases hp : m.store.Has p
    · refine .inr ?_
      rwa [Store.waits_register hp hks, Multiset.cons_add, ← Multiset.add_cons]
    · rw [Store.setState_of_not_has hp]
      exact drop (.inr hmem) fun he => absurd (he ▸ hmade.source) hp

end Holds

/-- What is in flight to a promise: the outcome of the source to the target, or anything else. -/
def Owes (A : Adoption) (t : PromiseId) (o : Outcome) (F : InFlight) (s : Store Handler) : Prop :=
  A.Holds F s ∨ (t = A.target ∧ Concrete o)

variable (A) in
/-- An adoption is kept up until the target is settled. -/
def protocol (context : Context) : Protocol context A.target where
  Inv F _ m := A.Made m ∧ A.Holds F m.store
  Due t o F _ m := A.Made m ∧ A.Owes t o F m.store
  passed h hpassed := ⟨h.1.evolves hpassed.evolves, h.2.passed h.1 hpassed⟩
  adopt {F d m p t o} h ho := by
    refine ⟨h.1, ?_⟩
    by_cases ht : t = A.target
    · exact .inr ⟨ht, h.1.flat.concrete ho⟩
    · exact .inl (h.2.drop fun _ he => ht (Continuation.adopt.inj he))
  derive h _ _ hpassed := ⟨h.1.evolves hpassed.evolves,
    .inl ((h.2.drop fun _ he => by cases he).passed h.1 hpassed)⟩
  notify h := ⟨h.1, h.2.drop fun _ he => by cases he⟩
  gather {F d m p id i o} h _ := by
    have hmade : A.Made (m.withStore (m.store.record id i o).2) :=
      h.1.evolves (.single (.recorded m id i o))
    have hholds : A.Holds F (m.store.record id i o).2 := by
      have hrest := h.2.drop fun _ he => by cases he
      unfold Holds at hrest ⊢
      rwa [Store.waits_record, Store.outcome?_record]
    split
    · exact ⟨hmade, hholds⟩
    · exact ⟨hmade, .inl hholds⟩
  settle {F d m t o ks} h ho hks := by
    refine ⟨h.1.evolves (evolves_settle hks ho), ?_⟩
    rcases h.2 with hholds | ⟨rfl, -⟩
    · exact hholds.settle ho hks
    · exact .inl ⟨o, Store.outcome?_setState_self h.1.target o⟩
  settled h ho := ⟨h.1, h.2.elim id fun ⟨ht, _⟩ => .inl ⟨_, ht ▸ ho⟩⟩
  self h := ⟨h.1, h.2.imp id fun ⟨ht, _⟩ => ⟨ht, concrete_error _⟩⟩
  adopts {F d m t s} h _ := by
    rcases h.2 with hholds | ⟨-, ho⟩
    · refine ⟨h.1, hholds.imp id fun hmem => ?_⟩
      rw [Multiset.add_cons]
      exact Multiset.mem_cons_of_mem hmem
    · exact absurd rfl (ho s)
  register h hks := ⟨h.1.evolves (evolves_register hks _), h.2.register h.1 hks⟩
  Own _ := False
  give h _ := ⟨h.1, .inl h.2⟩
  tasks _ _ _ h := h
  dequeue h _ := ⟨⟨h.1.flat, h.1.source, h.1.target⟩, h.2⟩

theorem counts (context : Context) : (A.protocol context).Counts := fun _ _ _ h => h.1.target

/-- The target is made to adopt the source. -/
theorem start {context : Context} {n : Nat} {m₁ : Machine} (hmade : A.Made m)
    (hr : Promise.onComplete (engine context n).deliver A.source (.adopt A.target) m = .ok () m₁) :
    A.Made m₁ ∧ A.Holds 0 m₁.store := by
  have hinv : (A.protocol context).Inv ((A.source, .adopt A.target) ::ₘ 0) 0 m :=
    ⟨hmade, .inr (Multiset.mem_add.2 (.inr (Multiset.mem_cons_self _ _)))⟩
  have htally := Protocol.onComplete ((A.protocol context).kept (counts context) n) hinv ⟨rfl, rfl⟩
  rw [hr] at htally
  obtain ⟨_, _, _, hinv₁, _⟩ := htally.of_ok
  exact hinv₁

/-- Whatever turns a host takes, the target is settled, or still waits for the source. -/
theorem runAll {context : Context} {n : Nat} {turns : List Turn} {m₁ : Machine} (hmade : A.Made m)
    (h : A.Holds 0 m.store) (hr : Turn.runAll (engine context n) turns m = .ok () m₁) :
    A.Holds 0 m₁.store := by
  have hinv : (A.protocol context).Inv 0 0 m := ⟨hmade, h⟩
  have hspare : Turn.Spare (A.protocol context).Own turns := fun _ _ _ h => h
  have htally := Protocol.runAll (counts context) (n := n) hinv hspare ⟨rfl, rfl⟩
  rw [hr] at htally
  obtain ⟨_, _, _, hinv, _⟩ := htally.of_ok
  exact hinv.2

end Adoption

end Deferral
