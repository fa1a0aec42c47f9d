import Mathlib.Data.Finset.Card
import Mathlib.Logic.Relation
import Deferral.Eval.Machine
import Deferral.Proofs.Promise.Steps

/-!
# Texts that come to an end

The text of a promise looks into the promises in its outcome, and from there into others. A promise is
`Endless` if this leads to one that is inside of itself. As there are only so many promises that have an
outcome, a way of looking that is longer passes through one of them twice; so the bound that
`Directory.ends` is asked for stands for all, and what is beyond it is endless (`Directory.ends_iff`).
A text that comes to an end does not depend on the bound (`Directory.promiseLabel_of_ends`).

A store in which some promise is inside of itself is `Tangled`. Where there is no text, it is
(`Machine.tangled_of_not_legible`), and it stays so.
-/

set_option autoImplicit false

namespace Deferral

open Relation

/-! ## Promises inside of promises -/

/-- The second promise is in the outcome of the first. -/
def Holds (outcome? : PromiseId → Option Outcome) (p q : PromiseId) : Prop :=
  ∃ o, outcome? p = some o ∧ q ∈ Outcome.promises o

/-- Some promise is inside of itself, by way of others or not. -/
def Tangled (outcome? : PromiseId → Option Outcome) : Prop := ∃ p, TransGen (Holds outcome?) p p

/-- What is tangled stays so while outcomes stay. -/
theorem Tangled.mono {σ σ' : PromiseId → Option Outcome} (h : Tangled σ)
    (hσ : ∀ p o, σ p = some o → σ' p = some o) : Tangled σ' := by
  obtain ⟨p, hp⟩ := h
  exact ⟨p, hp.lift id fun _ _ ⟨o, ho, hq⟩ => ⟨o, hσ _ _ ho, hq⟩⟩

/-! ## Looking through promises -/

namespace Directory

variable (d : Directory)

/-- Looking into the promise leads to one that is inside of itself. -/
def Endless (p : PromiseId) : Prop :=
  ∃ q, ReflTransGen (Holds d.outcome?) p q ∧ TransGen (Holds d.outcome?) q q

/-- Every promise that is settled is one of those that are counted. -/
def Counted : Prop := ∀ p o, d.outcome? p = some o → p.index < d.promises

variable {d} {n n' : Nat} {p q : PromiseId}

theorem ends_succ : d.ends (n + 1) p = true ↔ ∀ q, Holds d.outcome? p q → d.ends n q = true := by
  simp only [ends, Holds]
  cases d.outcome? p with
  | none => simp
  | some o => simp only [List.all_eq_true, Option.some.injEq, exists_eq_left']

theorem ends_of_holds (h : d.ends n p = true) (hq : Holds d.outcome? p q) :
    ∃ k < n, d.ends k q = true := by
  cases n with
  | zero => cases h
  | succ n => exact ⟨n, Nat.lt_succ_self n, ends_succ.1 h q hq⟩

theorem ends_of_transGen (h : d.ends n p = true) (hq : TransGen (Holds d.outcome?) p q) :
    ∃ k < n, d.ends k q = true := by
  induction hq with
  | single hq => exact ends_of_holds h hq
  | tail _ hq ih =>
    obtain ⟨k, hk, h⟩ := ih
    obtain ⟨k', hk', h⟩ := ends_of_holds h hq
    exact ⟨k', by omega, h⟩

/-- If a promise that comes to an end were inside of itself, it would come to an end sooner and
sooner. -/
theorem not_transGen_of_ends (h : d.ends n p = true) : ¬TransGen (Holds d.outcome?) p p := by
  intro hp
  induction n using Nat.strongRecOn with
  | ind n ih =>
    obtain ⟨k, hk, h⟩ := ends_of_transGen h hp
    exact ih k hk h

theorem not_endless_of_ends (h : d.ends n p = true) : ¬d.Endless p := by
  rintro ⟨q, hpq, hq⟩
  rcases reflTransGen_iff_eq_or_transGen.1 hpq with rfl | hpq
  · exact not_transGen_of_ends h hq
  · obtain ⟨k, -, h⟩ := ends_of_transGen h hpq
    exact not_transGen_of_ends h hq

/-- A look that has not come to an end has gone that far. -/
theorem exists_path (h : d.ends n p = false) :
    ∃ path : Nat → PromiseId, path 0 = p ∧ ∀ i < n, Holds d.outcome? (path i) (path (i + 1)) := by
  induction n generalizing p with
  | zero => exact ⟨fun _ => p, rfl, fun i hi => absurd hi (Nat.not_lt_zero i)⟩
  | succ n ih =>
    have hnot : ¬∀ q, Holds d.outcome? p q → d.ends n q = true := fun hall => by
      rw [ends_succ.2 hall] at h
      cases h
    obtain ⟨q, hnq⟩ := not_forall.1 hnot
    obtain ⟨hq, hends⟩ := Classical.not_imp.1 hnq
    obtain ⟨path, hstart, hpath⟩ := ih (Bool.not_eq_true _ ▸ hends)
    refine ⟨fun i => i.casesOn p path, rfl, fun i hi => ?_⟩
    cases i with
    | zero =>
      change Holds d.outcome? p (path 0)
      rwa [hstart]
    | succ i => exact hpath i (by omega)

theorem reflTransGen_path {path : Nat → PromiseId}
    (hpath : ∀ i < n, Holds d.outcome? (path i) (path (i + 1))) {i j : Nat} (hij : i ≤ j) (hj : j ≤ n) :
    ReflTransGen (Holds d.outcome?) (path i) (path j) := by
  induction j, hij using Nat.le_induction with
  | base => exact .refl
  | succ j _ ih => exact (ih (by omega)).tail (hpath j (by omega))

/-- Who goes further than there are promises with an outcome comes through one of them twice. -/
theorem endless_of_not_ends (hd : d.Counted) (hn : d.promises < n) (h : d.ends n p = false) :
    d.Endless p := by
  obtain ⟨path, rfl, hpath⟩ := exists_path h
  have hcounted : ∀ i ∈ Finset.range n, (path i).index ∈ Finset.range d.promises := by
    intro i hi
    obtain ⟨o, ho, -⟩ := hpath i (Finset.mem_range.1 hi)
    exact Finset.mem_range.2 (hd _ o ho)
  have hcard : (Finset.range d.promises).card < (Finset.range n).card := by
    simpa only [Finset.card_range] using hn
  obtain ⟨i, hi, j, hj, hne, heq⟩ := Finset.exists_ne_map_eq_of_card_lt_of_maps_to hcard hcounted
  have htwice : ∀ i j, i < j → j < n → (path i).index = (path j).index → d.Endless (path 0) := by
    intro i j hij hj heq
    have hsame : path i = path j := congrArg PromiseId.mk heq
    refine ⟨path i, reflTransGen_path hpath (Nat.zero_le i) (by omega), ?_⟩
    refine .head' (hpath i (by omega)) ?_
    rw [hsame]
    exact reflTransGen_path hpath hij (by omega)
  rw [Finset.mem_range] at hi hj
  rcases Nat.lt_or_gt_of_ne hne with hij | hij
  · exact htwice i j hij hj heq
  · exact htwice j i hij hi heq.symm

/-- The text of a promise comes to an end exactly if no promise inside of itself is looked into. -/
theorem ends_iff (hd : d.Counted) (hn : d.promises < n) : d.ends n p = true ↔ ¬d.Endless p := by
  refine ⟨not_endless_of_ends, fun h => ?_⟩
  by_contra hends
  exact h (endless_of_not_ends hd hn (Bool.not_eq_true _ ▸ hends))

/-- It does not matter which bound is asked for. -/
theorem ends_eq (hd : d.Counted) (hn : d.promises < n) (hn' : d.promises < n') (p : PromiseId) :
    d.ends n p = d.ends n' p := by
  rw [Bool.eq_iff_iff, ends_iff hd hn, ends_iff hd hn']

end Directory

/-! ## Texts and bounds -/

section

variable {function : FunctionId → String} {promise promise' : PromiseId → String} {style : Style}

namespace Value

mutual

/-- Labels of promises matter only where a promise is. -/
theorem render_of_promises :
    ∀ v : Value, (∀ p ∈ v.promises, promise' p = promise p) →
      v.render ⟨function, promise'⟩ style = v.render ⟨function, promise⟩ style
  | .unit, _ => rfl
  | .bool _, _ => rfl
  | .byte _, _ => rfl
  | .int _, _ => rfl
  | .float _, _ => rfl
  | .char _, _ => rfl
  | .symbol _, _ => rfl
  | .seq s, h => by rw [render, render, renderSeq_of_promises s h]
  | .tuple items, h => by rw [render, render, renderItems_of_promises items h]
  | .set items, h => by rw [render, render, renderItems_of_promises items h]
  | .dict entries, h => by rw [render, render, renderEntries_of_promises entries h]
  | .function _, _ => rfl
  | .module _, _ => rfl
  | .promise p, h => by
    cases style with
    | plain => rfl
    | quoted => exact h p (.head _)
termination_by structural v => v

theorem renderSeq_of_promises :
    ∀ s : Seq Value, (∀ p ∈ promisesSeq s, promise' p = promise p) →
      renderSeq ⟨function, promise'⟩ style s = renderSeq ⟨function, promise⟩ style s
  | ⟨front, back⟩, h => by
    rw [renderSeq, renderSeq,
      renderItems_of_promises front fun p hp => h p (List.mem_append.2 (.inl hp)),
      renderItems_of_promises back fun p hp => h p (List.mem_append.2 (.inr hp))]
termination_by structural s => s

theorem renderItems_of_promises :
    ∀ items : List Value, (∀ p ∈ promisesItems items, promise' p = promise p) →
      renderItems ⟨function, promise'⟩ style items = renderItems ⟨function, promise⟩ style items
  | [], _ => rfl
  | v :: rest, h => by
    rw [renderItems, renderItems,
      render_of_promises v fun p hp => h p (List.mem_append.2 (.inl hp)),
      renderItems_of_promises rest fun p hp => h p (List.mem_append.2 (.inr hp))]
termination_by structural items => items

theorem renderEntries_of_promises :
    ∀ entries : List (Value × Value),
      (∀ p ∈ promisesEntries entries, promise' p = promise p) →
        renderEntries ⟨function, promise'⟩ style entries =
          renderEntries ⟨function, promise⟩ style entries
  | [], _ => rfl
  | e :: rest, h => by
    rw [renderEntries, renderEntries,
      renderEntry_of_promises e fun p hp => h p (List.mem_append.2 (.inl hp)),
      renderEntries_of_promises rest fun p hp => h p (List.mem_append.2 (.inr hp))]
termination_by structural entries => entries

theorem renderEntry_of_promises :
    ∀ e : Value × Value, (∀ p ∈ promisesEntry e, promise' p = promise p) →
      renderEntry ⟨function, promise'⟩ style e = renderEntry ⟨function, promise⟩ style e
  | (k, v), h => by
    rw [renderEntry, renderEntry,
      render_of_promises k fun p hp => h p (List.mem_append.2 (.inl hp)),
      render_of_promises v fun p hp => h p (List.mem_append.2 (.inr hp))]
termination_by structural e => e

end

theorem quoted_of_promises {v : Value} (h : ∀ p ∈ v.promises, promise' p = promise p) :
    v.quoted ⟨function, promise'⟩ = v.quoted ⟨function, promise⟩ :=
  render_of_promises v h

theorem mem_promisesItems {p : PromiseId} {items : List Value} :
    p ∈ promisesItems items ↔ ∃ v ∈ items, p ∈ v.promises := by
  induction items with
  | nil => simp [promisesItems]
  | cons v rest ih => simp [promisesItems, ih]

end Value

theorem Error.message_of_promises (e : Error) (h : ∀ p ∈ e.promises, promise' p = promise p) :
    e.message ⟨function, promise'⟩ = e.message ⟨function, promise⟩ := by
  induction e with
  | typeError operation values =>
    have htexts : values.map (fun v => v.typeName ++ " " ++ v.quoted ⟨function, promise'⟩) =
        values.map fun v => v.typeName ++ " " ++ v.quoted ⟨function, promise⟩ := by
      refine List.map_congr_left fun v hv => ?_
      have hquoted : v.quoted ⟨function, promise'⟩ = v.quoted ⟨function, promise⟩ :=
        Value.quoted_of_promises fun p hp => h p (Value.mem_promisesItems.2 ⟨v, hv, hp⟩)
      rw [hquoted]
    exact congrArg (fun texts => "Type error: operation \"" ++ operation ++ "\" not defined for " ++
      commaJoin texts) htexts
  | traced cause stack ih => exact ih h
  | _ => rfl

end

namespace Directory

variable {d : Directory} {n n' : Nat} {p : PromiseId}

/-- A text that comes to an end is the same whatever the bound. -/
theorem promiseLabel_of_ends (h : d.ends n p = true) (hn : n ≤ n') :
    d.promiseLabel n' p = d.promiseLabel n p := by
  induction n generalizing n' p with
  | zero => cases h
  | succ n ih =>
    obtain ⟨k, rfl⟩ : ∃ k, n' = k + 1 := ⟨n' - 1, by omega⟩
    have hinside : ∀ o, d.outcome? p = some o → ∀ q ∈ Outcome.promises o,
        d.promiseLabel k q = d.promiseLabel n q :=
      fun o ho q hq => ih (ends_succ.1 h q ⟨o, ho, hq⟩) (by omega)
    unfold promiseLabel
    match ho : d.outcome? p with
    | none => rfl
    | some (.ok v) =>
      have hquoted : v.quoted ⟨d.functionLabel, d.promiseLabel k⟩ =
          v.quoted ⟨d.functionLabel, d.promiseLabel n⟩ :=
        Value.quoted_of_promises (hinside _ ho)
      simp only [hquoted]
    | some (.error e) =>
      have hmessage : e.message ⟨d.functionLabel, d.promiseLabel k⟩ =
          e.message ⟨d.functionLabel, d.promiseLabel n⟩ :=
        Error.message_of_promises e (hinside _ ho)
      simp only [hmessage]

end Directory

/-! ## Machines -/

theorem Machine.directory_counted (m : Machine) : m.directory.Counted := by
  intro p o ho
  refine Decidable.byContradiction fun hp => ?_
  have hnone : m.store.outcome? p = none := by
    rw [Store.outcome?, Store.state_of_not_has hp]
    rfl
  cases hnone.symm.trans ho

/-- If there is no text, then some promise is inside of itself. -/
theorem Machine.tangled_of_not_legible {m : Machine} {inside : List PromiseId}
    (h : m.directory.legible inside = false) : Tangled m.store.outcome? := by
  obtain ⟨p, -, hp⟩ := List.all_eq_false.1 h
  obtain ⟨q, -, hq⟩ := Directory.endless_of_not_ends m.directory_counted (Nat.lt_succ_self _)
    (Bool.not_eq_true _ ▸ hp)
  exact ⟨q, hq⟩

theorem Machine.tangled_of_quoted? {m : Machine} {v : Value} (h : m.directory.quoted? v = none) :
    Tangled m.store.outcome? := by
  unfold Directory.quoted? at h
  split at h
  · cases h
  · rename_i hlegible
    exact tangled_of_not_legible (Bool.not_eq_true _ ▸ hlegible)

theorem Machine.tangled_of_triple? {m : Machine} {stack : StackTrace} {e : Error}
    (h : m.directory.triple? stack e = none) : Tangled m.store.outcome? := by
  unfold Directory.triple? at h
  split at h
  · cases h
  · rename_i hlegible
    exact tangled_of_not_legible (Bool.not_eq_true _ ▸ hlegible)

end Deferral
