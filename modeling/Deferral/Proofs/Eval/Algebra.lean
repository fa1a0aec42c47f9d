import Deferral.Proofs.Eval.Lifting
import Deferral.Proofs.Value.Collections

/-!
# The algebra of sets and dictionaries

The operators `&`, `|` and `^` on sets make a Boolean ring up to `==` (`Items.set_algebra`), whatever the
elements are: nested collections, floats that are not a number, both zeros. On dictionaries they are a
left-biased meet and join, and a symmetric difference in which each key keeps the value that it came
with (`Entries.dict_algebra`). Every law is read off the look-ups in the operands.

The operators answer at once on sets and dictionaries (`BinaryOp.Yields`): neither is a promise.
-/

set_option autoImplicit false

namespace Deferral

open Value

/-- The operator answers at once on two values, on any machine, and leaves the machine as it is. -/
def BinaryOp.Yields (op : BinaryOp) (l r answer : Value) : Prop :=
  ∀ (E : Engine) (m : Machine), Strict.apply E (.binary op) [l, r] m = .ok answer m

theorem BinaryOp.yields_of_compute {op : BinaryOp} {l r v : Value} (hl : l.isPromise = false)
    (hr : r.isPromise = false) (h : op.compute l r = .ok v) : op.Yields l r v := by
  intro E m
  have hdirect : [l, r].any Value.isPromise = false := by
    rw [List.any_cons, hl, List.any_cons, hr]
    rfl
  rw [Strict.apply_direct hdirect, Strict.run, h]
  rfl

/-! ## Sets -/

namespace Items

/-- The laws of `&`, `|` and `^` on three sets. -/
structure Algebra (A B C : Items) : Prop where
  /-- The answers are sets without two equal elements. -/
  inter : BinaryOp.bitAnd.Yields (.set A) (.set B) (.set (A.inter B)) ∧ Proper (.set (A.inter B))
  union : BinaryOp.bitOr.Yields (.set A) (.set B) (.set (A.union B)) ∧ Proper (.set (A.union B))
  symmDiff : BinaryOp.bitXor.Yields (.set A) (.set B) (.set (A.symmDiff B)) ∧
    Proper (.set (A.symmDiff B))
  /-- What is in the answers is decided by what is in the operands. -/
  mem : ∀ x : Value, x.isPromise = false → ∃ a b,
    BinaryOp.mem.Yields x (.set A) (.bool a) ∧ BinaryOp.mem.Yields x (.set B) (.bool b) ∧
    BinaryOp.mem.Yields x (.set (A.inter B)) (.bool (a && b)) ∧
    BinaryOp.mem.Yields x (.set (A.union B)) (.bool (a || b)) ∧
    BinaryOp.mem.Yields x (.set (A.symmDiff B)) (.bool (a ^^ b))
  symmDiff_comm : (Value.set (A.symmDiff B) == .set (B.symmDiff A)) = true
  symmDiff_assoc :
    (Value.set ((A.symmDiff B).symmDiff C) == .set (A.symmDiff (B.symmDiff C))) = true
  symmDiff_self : A.symmDiff A = []
  symmDiff_cancel : (Value.set ((A.symmDiff B).symmDiff B) == .set A) = true
  inter_symmDiff :
    (Value.set (A.inter (B.symmDiff C)) == .set ((A.inter B).symmDiff (A.inter C))) = true
  union_eq : (Value.set (A.union B) == .set ((A.symmDiff B).symmDiff (A.inter B))) = true
  size : A.length + B.length = (A.union B).length + (A.inter B).length
  /-- Of an element of both sets the union keeps the right copy, and the intersection the left one. -/
  kept_union : ∀ x, (A.union B).find? x = (B.find? x).or (A.find? x)
  kept_inter : ∀ x, (A.inter B).find? x = if B.contains x then A.find? x else none

section

variable {A B C : Items} (hA : Proper (.set A)) (hB : Proper (.set B)) (hC : Proper (.set C))
include hA hB

theorem symmDiff_comm : (Value.set (A.symmDiff B) == .set (B.symmDiff A)) = true :=
  beq_of_contains (proper_symmDiff hA hB) (proper_symmDiff hB hA) fun x => by
    rw [contains_symmDiff hA hB, contains_symmDiff hB hA, Bool.xor_comm]

theorem symmDiff_cancel : (Value.set ((A.symmDiff B).symmDiff B) == .set A) = true :=
  beq_of_contains (proper_symmDiff (proper_symmDiff hA hB) hB) hA fun x => by
    rw [contains_symmDiff (proper_symmDiff hA hB) hB, contains_symmDiff hA hB, Bool.xor_assoc,
      Bool.xor_self, Bool.xor_false]

theorem union_eq_symmDiff :
    (Value.set (A.union B) == .set ((A.symmDiff B).symmDiff (A.inter B))) = true :=
  beq_of_contains (proper_union hA hB) (proper_symmDiff (proper_symmDiff hA hB) (proper_inter hA))
    fun x => by
      rw [contains_union hA hB, contains_symmDiff (proper_symmDiff hA hB) (proper_inter hA),
        contains_symmDiff hA hB, contains_inter hA hB]
      cases A.contains x <;> cases B.contains x <;> rfl

include hC

theorem symmDiff_assoc :
    (Value.set ((A.symmDiff B).symmDiff C) == .set (A.symmDiff (B.symmDiff C))) = true :=
  beq_of_contains (proper_symmDiff (proper_symmDiff hA hB) hC)
    (proper_symmDiff hA (proper_symmDiff hB hC)) fun x => by
      rw [contains_symmDiff (proper_symmDiff hA hB) hC, contains_symmDiff hA hB,
        contains_symmDiff hA (proper_symmDiff hB hC), contains_symmDiff hB hC, Bool.xor_assoc]

theorem inter_symmDiff :
    (Value.set (A.inter (B.symmDiff C)) == .set ((A.inter B).symmDiff (A.inter C))) = true :=
  beq_of_contains (proper_inter hA) (proper_symmDiff (proper_inter hA) (proper_inter hA)) fun x => by
    rw [contains_inter hA (proper_symmDiff hB hC), contains_symmDiff hB hC,
      contains_symmDiff (proper_inter hA) (proper_inter hA), contains_inter hA hB,
      contains_inter hA hC, Bool.and_xor_distrib_left]

end

theorem mem_yields (A : Items) {x : Value} (hx : x.isPromise = false) :
    BinaryOp.mem.Yields x (.set A) (.bool (A.contains x)) :=
  BinaryOp.yields_of_compute hx rfl (by cases x <;> rfl)

/-- The operators on sets obey the laws of a Boolean ring up to `==`, and keep the stated copies. -/
theorem set_algebra {A B C : Items} (hA : Proper (.set A)) (hB : Proper (.set B))
    (hC : Proper (.set C)) : Algebra A B C where
  inter := ⟨BinaryOp.yields_of_compute rfl rfl rfl, proper_inter hA⟩
  union := ⟨BinaryOp.yields_of_compute rfl rfl rfl, proper_union hA hB⟩
  symmDiff := ⟨BinaryOp.yields_of_compute rfl rfl rfl, proper_symmDiff hA hB⟩
  mem := fun x hx => ⟨A.contains x, B.contains x, mem_yields A hx, mem_yields B hx,
    contains_inter hA hB x ▸ mem_yields _ hx, contains_union hA hB x ▸ mem_yields _ hx,
    contains_symmDiff hA hB x ▸ mem_yields _ hx⟩
  symmDiff_comm := symmDiff_comm hA hB
  symmDiff_assoc := symmDiff_assoc hA hB hC
  symmDiff_self := (symmDiff_eq hA.keyed_set hA.keyed_set).trans (Keyed.unshared_self A)
  symmDiff_cancel := symmDiff_cancel hA hB
  inter_symmDiff := inter_symmDiff hA hB hC
  union_eq := union_eq_symmDiff hA hB
  size := by rw [Nat.add_comm (A.union B).length, length_inter_add_union hA hB]
  kept_union := find?_union hA hB
  kept_inter := find?_inter hA hB

/-- A zero, a not-a-number and a set. -/
def zeroes : Items :=
  ofList [.float 0.0, .float (Float.ofBits 0x7ff8000000000000), setOf [.int 1, .int 2]]

/-- The other zero, the same set in another order, and a text. -/
def mirrored : Items := ofList [.float (-0.0), setOf [.int 2, .int 1], .ofText "a"]

theorem proper_zeroes : Proper (.set zeroes) := by
  apply proper_setOf
  simp only [List.forall_mem_cons]
  refine ⟨.float _, .float _, proper_setOf ?_, List.forall_mem_nil _⟩
  simp only [List.forall_mem_cons]
  exact ⟨.int _, .int _, List.forall_mem_nil _⟩

theorem proper_mirrored : Proper (.set mirrored) := by
  apply proper_setOf
  simp only [List.forall_mem_cons]
  refine ⟨.float _, proper_setOf ?_, .seq _ ?_, List.forall_mem_nil _⟩
  · simp only [List.forall_mem_cons]
    exact ⟨.int _, .int _, List.forall_mem_nil _⟩
  · intro v hv
    exact List.mem_singleton.1 hv ▸ .char 'a'

theorem set_algebra_zeroes :
    Proper (.set zeroes) ∧ Proper (.set mirrored) ∧
      (Value.set ((zeroes.symmDiff mirrored).symmDiff zeroes) ==
        .set (zeroes.symmDiff (mirrored.symmDiff zeroes))) = true ∧
      6 = (zeroes.union mirrored).length + (zeroes.inter mirrored).length ∧
      (zeroes.union mirrored).find? (.float 0.0) = some (.float (-0.0)) ∧
      (zeroes.inter mirrored).find? (.float (-0.0)) = some (.float 0.0) := by
  have h := set_algebra proper_zeroes proper_mirrored proper_zeroes
  exact ⟨proper_zeroes, proper_mirrored, h.symmDiff_assoc, h.size, (h.kept_union _).trans rfl,
    (h.kept_inter _).trans rfl⟩

end Items

/-! ## Dictionaries -/

namespace Entries

/-- The laws of `&`, `|` and `^` on three dictionaries. -/
structure Algebra (D E F : Entries) : Prop where
  /-- The answers are dictionaries without two equal keys. -/
  inter : BinaryOp.bitAnd.Yields (.dict D) (.dict E) (.dict (D.inter E)) ∧ Proper (.dict (D.inter E))
  union : BinaryOp.bitOr.Yields (.dict D) (.dict E) (.dict (D.union E)) ∧ Proper (.dict (D.union E))
  symmDiff : BinaryOp.bitXor.Yields (.dict D) (.dict E) (.dict (D.symmDiff E)) ∧
    Proper (.dict (D.symmDiff E))
  /-- A dictionary contains the keys that have a value in it. -/
  mem : ∀ k, D.contains k = (D.get? k).isSome ∧
    (k.isPromise = false → BinaryOp.mem.Yields k (.dict D) (.bool (D.contains k)))
  get?_inter : ∀ k, (D.inter E).get? k =
    if D.contains k && E.contains k then D.get? k else none
  get?_union : ∀ k, (D.union E).get? k = if D.contains k then D.get? k else E.get? k
  get?_symmDiff : ∀ k, (D.symmDiff E).get? k =
    match D.contains k, E.contains k with
    | true, false => D.get? k
    | false, true => E.get? k
    | _, _ => none
  inter_assoc : (Value.dict ((D.inter E).inter F) == .dict (D.inter (E.inter F))) = true
  union_assoc : (Value.dict ((D.union E).union F) == .dict (D.union (E.union F))) = true
  inter_self : (Value.dict (D.inter D) == .dict D) = true
  union_self : (Value.dict (D.union D) == .dict D) = true
  inter_union : (Value.dict (D.inter (D.union E)) == .dict D) = true
  union_inter : (Value.dict (D.union (D.inter E)) == .dict D) = true
  symmDiff_comm : (Value.dict (D.symmDiff E) == .dict (E.symmDiff D)) = true
  symmDiff_self : D.symmDiff D = []
  size : (D.symmDiff E).length + 2 * (D.inter E).length = D.length + E.length

section

variable {D E F : Entries} (hD : Proper (.dict D)) (hE : Proper (.dict E)) (hF : Proper (.dict F))
include hD

theorem inter_self : (Value.dict (D.inter D) == .dict D) = true :=
  beq_of_get? (proper_inter hD) hD fun k => by
    rw [get?_inter hD hD, ← isSome_get?]
    cases D.get? k <;> rfl

theorem union_self : (Value.dict (D.union D) == .dict D) = true :=
  beq_of_get? (proper_union hD hD) hD fun k => by
    rw [get?_union hD hD, Option.or_self]

include hE

theorem inter_union : (Value.dict (D.inter (D.union E)) == .dict D) = true :=
  beq_of_get? (proper_inter hD) hD fun k => by
    rw [get?_inter hD (proper_union hD hE), ← isSome_get?, get?_union hD hE]
    cases D.get? k <;> cases E.get? k <;> rfl

theorem union_inter : (Value.dict (D.union (D.inter E)) == .dict D) = true :=
  beq_of_get? (proper_union hD (proper_inter hD)) hD fun k => by
    rw [get?_union hD (proper_inter hD), get?_inter hD hE, ← isSome_get?]
    cases D.get? k <;> cases E.get? k <;> rfl

theorem symmDiff_comm : (Value.dict (D.symmDiff E) == .dict (E.symmDiff D)) = true :=
  beq_of_get? (proper_symmDiff hD hE) (proper_symmDiff hE hD) fun k => by
    rw [get?_symmDiff hD hE, get?_symmDiff hE hD, ← isSome_get?, ← isSome_get?]
    cases D.get? k <;> cases E.get? k <;> rfl

include hF

theorem inter_assoc : (Value.dict ((D.inter E).inter F) == .dict (D.inter (E.inter F))) = true :=
  beq_of_get? (proper_inter (proper_inter hD)) (proper_inter hD) fun k => by
    rw [get?_inter (proper_inter hD) hF, get?_inter hD hE, get?_inter hD (proper_inter hE),
      ← isSome_get?, ← isSome_get?, ← isSome_get?, get?_inter hE hF, ← isSome_get?]
    cases D.get? k <;> cases E.get? k <;> cases F.get? k <;> rfl

theorem union_assoc : (Value.dict ((D.union E).union F) == .dict (D.union (E.union F))) = true :=
  beq_of_get? (proper_union (proper_union hD hE) hF) (proper_union hD (proper_union hE hF)) fun k => by
    rw [get?_union (proper_union hD hE) hF, get?_union hD hE, get?_union hD (proper_union hE hF),
      get?_union hE hF, Option.or_assoc]

end

theorem mem_yields (D : Entries) {k : Value} (hk : k.isPromise = false) :
    BinaryOp.mem.Yields k (.dict D) (.bool (D.contains k)) :=
  BinaryOp.yields_of_compute hk rfl (by cases k <;> rfl)

/-- The operators on dictionaries give the stated value for every key, and obey the laws up to `==`. -/
theorem dict_algebra {D E F : Entries} (hD : Proper (.dict D)) (hE : Proper (.dict E))
    (hF : Proper (.dict F)) : Algebra D E F where
  inter := ⟨BinaryOp.yields_of_compute rfl rfl rfl, proper_inter hD⟩
  union := ⟨BinaryOp.yields_of_compute rfl rfl rfl, proper_union hD hE⟩
  symmDiff := ⟨BinaryOp.yields_of_compute rfl rfl rfl, proper_symmDiff hD hE⟩
  mem := fun k => ⟨(isSome_get? k).symm, mem_yields D⟩
  get?_inter := fun k => by
    rw [get?_inter hD hE, ← isSome_get?, ← isSome_get?]
    cases D.get? k <;> cases E.get? k <;> rfl
  get?_union := fun k => by
    rw [get?_union hD hE, ← isSome_get?]
    cases D.get? k <;> rfl
  get?_symmDiff := fun k => by
    rw [get?_symmDiff hD hE, ← isSome_get?, ← isSome_get?]
    cases D.get? k <;> cases E.get? k <;> rfl
  inter_assoc := inter_assoc hD hE hF
  union_assoc := union_assoc hD hE hF
  inter_self := inter_self hD
  union_self := union_self hD
  inter_union := inter_union hD hE
  union_inter := union_inter hD hE
  symmDiff_comm := symmDiff_comm hD hE
  symmDiff_self := (symmDiff_eq hD.keyed_dict hD.keyed_dict).trans (Keyed.unshared_self D)
  size := length_symmDiff_add_inter hD hE

/-- Entries under a zero and under a sequence. -/
def tally : Entries := ofList [(.float 0.0, .int 1), (.seq ⟨[.int 1, .int 2], []⟩, .int 2)]

/-- Entries under the other zero, under the same sequence split elsewhere, and under a symbol. -/
def ledger : Entries :=
  ofList [(.float (-0.0), .int 3), (.seq ⟨[.int 1], [.int 2]⟩, .int 4), (.symbol "new", .unit)]

theorem proper_pair (v w : Int64) (s : Seq Value) (hs : s.toList = [.int v, .int w]) :
    Proper (.seq s) := by
  refine .seq s fun x hx => ?_
  rw [hs] at hx
  simp only [List.mem_cons, List.not_mem_nil, or_false] at hx
  rcases hx with rfl | rfl <;> exact .int _

theorem proper_tally : Proper (.dict tally) := by
  apply proper_dictOf
  simp only [List.forall_mem_cons]
  exact ⟨⟨.float _, .int _⟩, ⟨proper_pair 1 2 _ rfl, .int _⟩, List.forall_mem_nil _⟩

theorem proper_ledger : Proper (.dict ledger) := by
  apply proper_dictOf
  simp only [List.forall_mem_cons]
  exact ⟨⟨.float _, .int _⟩, ⟨proper_pair 1 2 _ rfl, .int _⟩, ⟨.symbol _, .unit⟩,
    List.forall_mem_nil _⟩

theorem dict_algebra_tally :
    Proper (.dict tally) ∧ Proper (.dict ledger) ∧
      (tally.union ledger).get? (.float (-0.0)) = some (.int 1) ∧
      (tally.inter ledger).get? (.seq ⟨[], [.int 2, .int 1]⟩) = some (.int 2) ∧
      (tally.symmDiff ledger).get? (.float 0.0) = none ∧
      (tally.symmDiff ledger).get? (.symbol "new") = some .unit ∧
      (tally.symmDiff ledger).length + 2 * (tally.inter ledger).length = 5 := by
  have h := dict_algebra proper_tally proper_ledger proper_tally
  exact ⟨proper_tally, proper_ledger, (h.get?_union _).trans rfl, (h.get?_inter _).trans rfl,
    (h.get?_symmDiff _).trans rfl, (h.get?_symmDiff _).trans rfl, h.size⟩

end Entries

end Deferral
