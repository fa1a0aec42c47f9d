import Deferral.Proofs.Value.Lawful

/-!
# Operations on sets and dictionaries

What the operations leave in a set or dictionary is said by look-ups: which stored element equals a
value (`Items.find?`), and which value a key has (`Entries.get?`). There is one equation for each
operation, and it mentions the look-ups in the operands alone. Two sets are equal when they have the
same members (`Items.beq_of_contains`), and two dictionaries when all keys have the same values
(`Entries.beq_of_get?`), so a law of the operations is a law of look-ups.

The operations build their results by insertion, from entries without two equal keys where the operands
are proper. So the results are `Keyed.within` and `Keyed.without` of the operands put together, and the
sizes come from there.
-/

set_option autoImplicit false

namespace Deferral

open Value

/-! ## Sets -/

namespace Items

/-- The stored element that equals a value. -/
def find? (items : Items) (v : Value) : Option Value := List.find? (· == v) items

variable {A B C : Items}

theorem isSome_find? (x : Value) : (A.find? x).isSome = A.contains x := Keyed.isSome_find?

theorem inter_eq (hA : Keyed id A) : A.inter B = Keyed.within id A B := by
  rw [inter, ofList, insert_eq_put]
  exact Keyed.foldl_put hA.keyed_within.apart

theorem symmDiff_eq (hA : Keyed id A) (hB : Keyed id B) : A.symmDiff B = Keyed.unshared id A B := by
  rw [symmDiff, ofList, insert_eq_put]
  exact Keyed.foldl_put (hA.keyed_unshared hB).apart

theorem proper_inter (hA : Proper (.set A)) : Proper (.set (A.inter B)) := by
  rw [inter_eq hA.keyed_set]
  exact proper_set_of_keyed hA.keyed_set.keyed_within fun v hv => hA.items v (List.mem_filter.1 hv).1

variable (hA : Proper (.set A)) (hB : Proper (.set B))
include hA hB

theorem proper_union : Proper (.set (A.union B)) :=
  proper_foldl_insert hA hB.items

theorem proper_symmDiff : Proper (.set (A.symmDiff B)) := by
  rw [symmDiff_eq hA.keyed_set hB.keyed_set]
  refine proper_set_of_keyed (hA.keyed_set.keyed_unshared hB.keyed_set) fun v hv => ?_
  rcases List.mem_append.1 hv with hv | hv
  · exact hA.items v (List.mem_filter.1 hv).1
  · exact hB.items v (List.mem_filter.1 hv).1

/-- Of an element of both the intersection keeps the left one. -/
theorem find?_inter (x : Value) :
    (A.inter B).find? x = if B.contains x then A.find? x else none := by
  rw [inter_eq hA.keyed_set]
  exact Keyed.find?_within hA.keyed_set.lawful hB.keyed_set.lawful x

/-- Of an element of both the union keeps the right one. -/
theorem find?_union (x : Value) : (A.union B).find? x = (B.find? x).or (A.find? x) := by
  rw [union, insert_eq_put]
  exact Keyed.find?_foldl_put hB.keyed_set hA.keyed_set x

theorem contains_inter (x : Value) : (A.inter B).contains x = (A.contains x && B.contains x) := by
  rw [inter_eq hA.keyed_set]
  exact Keyed.has_within hA.keyed_set.lawful hB.keyed_set.lawful x

theorem contains_union (x : Value) : (A.union B).contains x = (A.contains x || B.contains x) := by
  rw [← isSome_find?, find?_union hA hB, Option.isSome_or, isSome_find?, isSome_find?, Bool.or_comm]

theorem contains_symmDiff (x : Value) :
    (A.symmDiff B).contains x = (A.contains x ^^ B.contains x) := by
  rw [symmDiff_eq hA.keyed_set hB.keyed_set]
  exact Keyed.has_unshared hA.keyed_set.lawful hB.keyed_set.lawful x

theorem length_inter_add_union : (A.inter B).length + (A.union B).length = A.length + B.length := by
  -- the union has the keys of the elements of the left that the right does not have, and of the right
  have hsplit : (A.union B).length = (B ++ Keyed.without id A B).length := by
    refine (proper_union hA hB).keyed_set.length_eq_of_has
      (hB.keyed_set.append_without hA.keyed_set) fun x => ?_
    rw [Keyed.has_append, Keyed.has_without hA.keyed_set.lawful hB.keyed_set.lawful]
    refine (contains_union hA hB x).trans ?_
    change (A.contains x || B.contains x) = (B.contains x || A.contains x && !B.contains x)
    cases A.contains x <;> cases B.contains x <;> rfl
  have hcount := Keyed.length_split id A B
  rw [inter_eq hA.keyed_set, hsplit, List.length_append]
  omega

/-- Sets with the same members are equal. -/
theorem beq_of_contains (h : ∀ x, A.contains x = B.contains x) :
    (Value.set A == Value.set B) = true := by
  refine eqv_set_iff.2 ⟨hA.keyed_set.length_eq_of_has hB.keyed_set h, fun a ha => ?_⟩
  obtain ⟨b, hb, hba⟩ := Keyed.has_iff.1 ((h a).symm.trans (Keyed.has_key ha))
  exact ⟨b, hb, (hB.keyed_set.lawful b hb).symm hba⟩

end Items

/-! ## Dictionaries -/

namespace Entries

variable {D E : Entries}

theorem isSome_get? (k : Value) : (D.get? k).isSome = D.contains k :=
  Option.isSome_map.trans Keyed.isSome_find?

theorem insertNew_eq_putNew : insertNew = Keyed.putNew Prod.fst := by
  funext entries e
  rw [insertNew, insert_eq_put]
  rfl

theorem inter_eq (hD : Keyed Prod.fst D) : D.inter E = Keyed.within Prod.fst D E := by
  rw [inter, ofList, insert_eq_put]
  exact Keyed.foldl_put hD.keyed_within.apart

theorem union_eq (hE : Keyed Prod.fst E) : D.union E = D ++ Keyed.without Prod.fst E D := by
  rw [union, insertNew_eq_putNew]
  exact Keyed.foldl_putNew hE.apart D

theorem symmDiff_eq (hD : Keyed Prod.fst D) (hE : Keyed Prod.fst E) :
    D.symmDiff E = Keyed.unshared Prod.fst D E := by
  rw [symmDiff, ofList, insert_eq_put]
  exact Keyed.foldl_put (hD.keyed_unshared hE).apart

theorem proper_inter (hD : Proper (.dict D)) : Proper (.dict (D.inter E)) := by
  rw [inter_eq hD.keyed_dict]
  exact proper_dict_of_keyed hD.keyed_dict.keyed_within fun e he =>
    hD.entries e (List.mem_filter.1 he).1

variable (hD : Proper (.dict D)) (hE : Proper (.dict E))
include hD hE

theorem proper_union : Proper (.dict (D.union E)) := by
  rw [union_eq hE.keyed_dict]
  refine proper_dict_of_keyed (hD.keyed_dict.append_without hE.keyed_dict) fun e he => ?_
  rcases List.mem_append.1 he with he | he
  · exact hD.entries e he
  · exact hE.entries e (List.mem_filter.1 he).1

theorem proper_symmDiff : Proper (.dict (D.symmDiff E)) := by
  rw [symmDiff_eq hD.keyed_dict hE.keyed_dict]
  refine proper_dict_of_keyed (hD.keyed_dict.keyed_unshared hE.keyed_dict) fun e he => ?_
  rcases List.mem_append.1 he with he | he
  · exact hD.entries e (List.mem_filter.1 he).1
  · exact hE.entries e (List.mem_filter.1 he).1

/-- A shared key has the left value. -/
theorem get?_inter (k : Value) : (D.inter E).get? k = if E.contains k then D.get? k else none := by
  have hfind := Keyed.find?_within hD.keyed_dict.lawful hE.keyed_dict.lawful k
  rw [inter_eq hD.keyed_dict]
  refine (congrArg (Option.map Prod.snd) hfind).trans ?_
  exact apply_ite (Option.map Prod.snd) _ _ _

/-- The left value comes first. -/
theorem get?_union (k : Value) : (D.union E).get? k = (D.get? k).or (E.get? k) := by
  have hfind := Keyed.find?_append_without hD.keyed_dict.lawful hE.keyed_dict.lawful k
  rw [union_eq hE.keyed_dict]
  exact (congrArg (Option.map Prod.snd) hfind).trans Option.map_or

/-- A key of one dictionary has the value that it has there. -/
theorem get?_symmDiff (k : Value) :
    (D.symmDiff E).get? k =
      if D.contains k then if E.contains k then none else D.get? k else E.get? k := by
  have hfind := Keyed.find?_unshared hD.keyed_dict.lawful hE.keyed_dict.lawful k
  rw [symmDiff_eq hD.keyed_dict hE.keyed_dict]
  refine (congrArg (Option.map Prod.snd) hfind).trans ?_
  rw [apply_ite (Option.map Prod.snd), apply_ite (Option.map Prod.snd)]
  rfl

theorem length_symmDiff_add_inter :
    (D.symmDiff E).length + 2 * (D.inter E).length = D.length + E.length := by
  rw [symmDiff_eq hD.keyed_dict hE.keyed_dict, inter_eq hD.keyed_dict]
  exact hD.keyed_dict.length_unshared hE.keyed_dict

/-- Dictionaries in which every key has the same value are equal. -/
theorem beq_of_get? (h : ∀ k, D.get? k = E.get? k) : (Value.dict D == Value.dict E) = true := by
  have hsame : ∀ k, Keyed.has Prod.fst D k = Keyed.has Prod.fst E k := fun k => by
    change D.contains k = E.contains k
    rw [← isSome_get?, h, isSome_get?]
  refine eqv_dict_iff.2 ⟨hD.keyed_dict.length_eq_of_has hE.keyed_dict hsame, fun e he => ?_⟩
  have hvalue : E.get? e.1 = some e.2 :=
    (h e.1).symm.trans (congrArg (Option.map Prod.snd) (hD.keyed_dict.find?_key he))
  obtain ⟨f, hf, hfe⟩ := Option.map_eq_some_iff.1 hvalue
  have hkey := List.find?_some hf
  refine ⟨f, List.mem_of_find?_eq_some hf, ?_, hfe ▸ eqv_refl f.2⟩
  exact (hE.keyed_dict.lawful f (List.mem_of_find?_eq_some hf)).symm hkey

end Entries

end Deferral
