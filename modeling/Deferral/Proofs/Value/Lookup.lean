import Mathlib.Data.List.Basic
import Mathlib.Data.List.Find
import Mathlib.Data.List.Forall2
import Deferral.Value.Collections
import Deferral.Value.Digest

/-!
# Lists that are looked through by key

A set is a list of elements and a dictionary a list of entries, and both are looked through by a key
that is compared with `==`: an element is its own key. What holds of such a list whatever its entries
are is said here once, for any `key`. A list is `Keyed` if no two of its keys are equal and the laws of
equality hold at each (`Lawful`); that all values of programs have the laws is shown elsewhere.

Inserting changes what is found at one key (`find?_put`), and a list that is built from entries without
two equal keys is those entries (`foldl_put`). `within` and `without` keep the entries whose key is, or
is not, in another list; a look-up in them is settled by the look-ups in the two lists (`find?_within`,
`find?_without`), since `has` does not tell equal keys apart (`has_congr`). Lists that have the same keys
are equally long (`length_eq_of_has`), and every statement about sizes comes from that.
-/

set_option autoImplicit false

namespace Deferral

/-! ## Every value equals itself -/

namespace Value

mutual

theorem eqv_refl : ∀ v : Value, eqv v v = true
  | .unit => rfl
  | .bool b => by rw [eqv, beq_self_eq_true]
  | .byte b => by rw [eqv, beq_self_eq_true]
  | .int n => by rw [eqv, beq_self_eq_true]
  | .float x => by rw [eqv, beq_self_eq_true]
  | .char c => by rw [eqv, beq_self_eq_true]
  | .symbol name => by rw [eqv, beq_self_eq_true]
  | .seq ⟨front, back⟩ => by
    rw [eqv, eqvSeq, Seq.toList]
    simp only [List.take_left, List.drop_left, List.reverse_reverse, eqvItems_refl front,
      eqvItems_refl back, Bool.and_self]
  | .tuple items => by rw [eqv, eqvItems_refl items]
  | .set items => by
    rw [eqv, beq_self_eq_true, Bool.true_and, allMembers_of_subset items items fun _ h => h]
  | .dict entries => by
    rw [eqv, beq_self_eq_true, Bool.true_and, allEntries_of_subset entries entries fun _ h => h]
  | .function id => by rw [eqv, beq_self_eq_true]
  | .module m => by rw [eqv, beq_self_eq_true]
  | .promise id => by rw [eqv, beq_self_eq_true]
termination_by structural v => v

theorem eqvItems_refl : ∀ items : List Value, eqvItems items items = true
  | [] => rfl
  | v :: rest => by rw [eqvItems, eqv_refl v, eqvItems_refl rest, Bool.and_self]
termination_by structural v => v

theorem allMembers_of_subset : ∀ items others : List Value, (∀ v ∈ items, v ∈ others) →
    allMembers items others = true
  | [], _, _ => rfl
  | v :: rest, others, h => by
    have hv : others.any (fun b => eqv v b) = true :=
      List.any_eq_true.2 ⟨v, h v (.head _), eqv_refl v⟩
    rw [allMembers, hv, allMembers_of_subset rest others fun x hx => h x (.tail _ hx), Bool.and_self]
termination_by structural v => v

theorem allEntries_of_subset : ∀ entries others : List (Value × Value),
    (∀ e ∈ entries, e ∈ others) → allEntries entries others = true
  | [], _, _ => rfl
  | (k, v) :: rest, others, h => by
    have hv : others.any (fun f => eqvEntry (k, v) f) = true :=
      List.any_eq_true.2 ⟨(k, v), h (k, v) (.head _), by
        rw [eqvEntry, eqv_refl k, eqv_refl v, Bool.and_self]⟩
    rw [allEntries, hv, allEntries_of_subset rest others fun x hx => h x (.tail _ hx), Bool.and_self]
termination_by structural v => v

end

theorem beq_refl (v : Value) : (v == v) = true := eqv_refl v

end Value

/-! ## The laws of equality -/

/-- The laws at one value. -/
structure Value.Lawful (a : Value) : Prop where
  symm : ∀ {b}, eqv a b = true → eqv b a = true
  trans : ∀ {b c}, eqv a b = true → eqv b c = true → eqv a c = true
  feed : ∀ (digest : List Nat → UInt64) {b}, eqv a b = true → feed digest a = feed digest b

/-- Where two values are found as the same one, they are equal. -/
theorem Value.Lawful.eqv_of_found {a a' b : Value} (h : Lawful a) (h' : Lawful a')
    (hb : eqv a b = true) (hb' : eqv a' b = true) : eqv a a' = true :=
  h.trans hb (h'.symm hb')

/-- If no two elements of a list are found as the same element of another list that is no longer, then
what they are found as is all of it. -/
theorem exists_perm_of_found {α : Type} {R : α → α → Prop} : ∀ {as bs : List α},
    bs.length ≤ as.length → (∀ a ∈ as, ∃ b ∈ bs, R a b) →
    as.Pairwise (fun a a' => ∀ b, R a b → ¬R a' b) → ∃ cs, cs.Perm bs ∧ List.Forall₂ R as cs
  | [], bs, hlen, _, _ => by
    obtain rfl := List.eq_nil_of_length_eq_zero (Nat.le_zero.1 hlen)
    exact ⟨[], .nil, .nil⟩
  | a :: as, bs, hlen, hfound, hapart => by
    rw [List.forall_mem_cons] at hfound
    rw [List.pairwise_cons] at hapart
    obtain ⟨b, hb, hab⟩ := hfound.1
    obtain ⟨before, after, rfl⟩ := List.append_of_mem hb
    have hrest : ∀ a' ∈ as, ∃ b' ∈ before ++ after, R a' b' := by
      intro a' ha'
      obtain ⟨b', hb', hab'⟩ := hfound.2 a' ha'
      refine ⟨b', ?_, hab'⟩
      have hne : b' ≠ b := by
        rintro rfl
        exact hapart.1 a' ha' b' hab hab'
      simpa [hne] using hb'
    have hlen' : (before ++ after).length ≤ as.length := by
      simp only [List.length_append, List.length_cons] at hlen ⊢
      omega
    obtain ⟨cs, hperm, hcs⟩ := exists_perm_of_found hlen' hrest hapart.2
    exact ⟨b :: cs, (hperm.cons b).trans List.perm_middle.symm, .cons hab hcs⟩

/-! ## Looking up -/

/-- No two keys are equal, and the laws of equality hold at each. -/
structure Keyed {α : Type} (key : α → Value) (l : List α) : Prop where
  lawful : ∀ a ∈ l, (key a).Lawful
  apart : l.Pairwise fun a b => (key a == key b) = false

namespace Keyed

open Value

section

variable {α : Type} (key : α → Value)

/-- The entry of a key. -/
def find? (l : List α) (k : Value) : Option α := l.find? fun a => key a == k

/-- Whether there is an entry of a key. -/
def has (l : List α) (k : Value) : Bool := l.any fun a => key a == k

/-- Adds an entry, or replaces the one with an equal key. -/
def put : List α → α → List α
  | [], a => [a]
  | b :: rest, a => if key b == key a then a :: rest else b :: put rest a

/-- Adds an entry unless its key is there. -/
def putNew (l : List α) (a : α) : List α := if has key l (key a) then l else put key l a

/-- The entries whose key is in another list. -/
def within (l others : List α) : List α := l.filter fun a => has key others (key a)

/-- The entries whose key is not in another list. -/
def without (l others : List α) : List α := l.filter fun a => !has key others (key a)

/-- The entries of two lists whose key is not in both. -/
def unshared (l others : List α) : List α := without key l others ++ without key others l

end

variable {α : Type} {key : α → Value} {l others : List α} {a : α} {k : Value}

theorem has_iff : has key l k = true ↔ ∃ a ∈ l, (key a == k) = true := List.any_eq_true

theorem not_has_iff : has key l k = false ↔ ∀ a ∈ l, (key a == k) = false := by
  simp only [has, List.any_eq_false, Bool.not_eq_true]

theorem isSome_find? : (find? key l k).isSome = has key l k := by
  rw [Bool.eq_iff_iff, has_iff, find?, List.find?_isSome]

theorem find?_of_not_has (h : has key l k = false) : find? key l k = none := by
  rwa [← Option.isNone_iff_eq_none, ← Option.not_isSome, isSome_find?, Bool.not_eq_true']

/-- An entry has its own key. -/
theorem has_key (h : a ∈ l) : has key l (key a) = true := has_iff.2 ⟨a, h, beq_refl _⟩

theorem find?_cons (a : α) (l : List α) (k : Value) :
    find? key (a :: l) k = if key a == k then some a else find? key l k := by
  rw [find?, List.find?_cons]
  cases key a == k <;> rfl

theorem find?_append (l l' : List α) (k : Value) :
    find? key (l ++ l') k = (find? key l k).or (find? key l' k) :=
  List.find?_append

theorem has_append (l l' : List α) (k : Value) :
    has key (l ++ l') k = (has key l k || has key l' k) :=
  List.any_append

/-- A key stands for whatever equals it. -/
theorem has_congr (hl : ∀ b ∈ l, (key b).Lawful) (ha : (key a).Lawful) (hak : (key a == k) = true) :
    has key l (key a) = has key l k := by
  rw [Bool.eq_iff_iff, has_iff, has_iff]
  constructor
  · rintro ⟨b, hb, hba⟩
    exact ⟨b, hb, (hl b hb).trans hba hak⟩
  · rintro ⟨b, hb, hbk⟩
    exact ⟨b, hb, (hl b hb).eqv_of_found ha hbk hak⟩

theorem sublist (h : Keyed key l) {l' : List α} (hl' : l'.Sublist l) : Keyed key l' :=
  ⟨fun a ha => h.lawful a (hl'.subset ha), h.apart.sublist hl'⟩

theorem tail (h : Keyed key (a :: l)) : Keyed key l := h.sublist (List.sublist_cons_self a l)

/-- Every entry is found by its own key. -/
theorem find?_key : ∀ {l : List α}, Keyed key l → a ∈ l → find? key l (key a) = some a
  | [], _, ha => nomatch ha
  | b :: _, h, ha => by
    rw [find?_cons]
    rcases List.mem_cons.1 ha with rfl | ha
    · rw [if_pos (beq_refl _)]
    · rw [(List.pairwise_cons.1 h.apart).1 a ha, if_neg nofun, find?_key h.tail ha]

/-! ## Inserting -/

theorem mem_put {b : α} : ∀ {l : List α}, b ∈ put key l a → b ∈ l ∨ b = a
  | [], h => .inr (List.mem_singleton.1 h)
  | c :: rest, h => by
    rw [put] at h
    split at h
    · rcases List.mem_cons.1 h with rfl | h
      · exact .inr rfl
      · exact .inl (.tail _ h)
    · rcases List.mem_cons.1 h with rfl | h
      · exact .inl (.head _)
      · exact (mem_put h).imp_left (.tail _)

theorem mem_foldl_put {b : α} {new l : List α} (h : b ∈ new.foldl (put key) l) : b ∈ l ∨ b ∈ new := by
  induction new generalizing l with
  | nil => exact .inl h
  | cons a new ih =>
    rcases ih h with h | h
    · exact (mem_put h).imp_right fun hb => List.mem_cons.2 (.inl hb)
    · exact .inr (.tail _ h)

theorem put_of_not_has (h : has key l (key a) = false) : put key l a = l ++ [a] := by
  induction l with
  | nil => rfl
  | cons b rest ih =>
    rw [not_has_iff, List.forall_mem_cons, ← not_has_iff] at h
    rw [put, if_neg (by rw [h.1]; nofun), ih h.2, List.cons_append]

/-- Inserting keeps keys apart. -/
theorem put_apart (hl : ∀ b ∈ l, (key b).Lawful) (h : l.Pairwise fun b c => (key b == key c) = false) :
    (put key l a).Pairwise fun b c => (key b == key c) = false := by
  induction l with
  | nil => exact List.pairwise_singleton ..
  | cons b rest ih =>
    rw [List.forall_mem_cons] at hl
    rw [List.pairwise_cons] at h
    rw [put]
    split
    · rename_i hba
      refine List.pairwise_cons.2 ⟨fun c hc => ?_, h.2⟩
      -- what equals the new entry would equal the one that it replaces
      by_contra hac
      have hbc := hl.1.trans hba (eq_true_of_ne_false hac)
      rw [show eqv (key b) (key c) = false from h.1 c hc] at hbc
      cases hbc
    · rename_i hba
      refine List.pairwise_cons.2 ⟨fun c hc => ?_, ih hl.2 h.2⟩
      rcases mem_put hc with hc | rfl
      · exact h.1 c hc
      · exact eq_false_of_ne_true hba

theorem keyed_put (h : Keyed key l) (ha : (key a).Lawful) : Keyed key (put key l a) := by
  refine ⟨fun b hb => ?_, put_apart h.lawful h.apart⟩
  rcases mem_put hb with hb | rfl
  · exact h.lawful b hb
  · exact ha

/-- Inserting changes what is found at the keys that equal the new one. -/
theorem find?_put (hl : ∀ b ∈ l, (key b).Lawful) (ha : (key a).Lawful) (k : Value) :
    find? key (put key l a) k = if key a == k then some a else find? key l k := by
  induction l with
  | nil => rw [put, find?_cons]
  | cons b rest ih =>
    rw [List.forall_mem_cons] at hl
    rw [put, find?_cons b rest]
    split
    · rename_i hba
      -- the new entry is found by whatever has found the one that it replaces
      have hboth : (key b == k) = true → (key a == k) = true := ha.trans (hl.1.symm hba)
      rw [find?_cons]
      split
      · rfl
      · rename_i hak
        rw [if_neg fun hbk => hak (hboth hbk)]
    · rename_i hba
      have hone : (key b == k) = true → ¬(key a == k) = true := fun hbk hak =>
        hba (hl.1.eqv_of_found ha hbk hak)
      rw [find?_cons, ih hl.2]
      split
      · rename_i hbk
        rw [if_neg (hone hbk)]
      · rfl

/-- Of two lists one of which is inserted into the other, the inserted one is looked through first. -/
theorem find?_foldl_put {es : List α} (hes : Keyed key es) :
    ∀ {l : List α}, Keyed key l → ∀ k : Value,
      find? key (es.foldl (put key) l) k = (find? key es k).or (find? key l k) := by
  induction es with
  | nil => exact fun _ _ => rfl
  | cons e es ih =>
    intro l hl k
    have he := hes.lawful e (.head _)
    rw [List.foldl_cons, ih hes.tail (hl.keyed_put he), find?_put hl.lawful he, find?_cons]
    split
    · rename_i hek
      -- no later entry has an equal key
      have hrest : has key es k = false := by
        rw [← has_congr hes.tail.lawful he hek, not_has_iff]
        intro b hb
        by_contra hbe
        have heb := (hes.tail.lawful b hb).symm (eq_true_of_ne_false hbe)
        rw [show eqv (key e) (key b) = false from (List.pairwise_cons.1 hes.apart).1 b hb] at heb
        cases heb
      rw [find?_of_not_has hrest]
      rfl
    · rfl

/-- A list that is built from entries without two equal keys is those entries. -/
theorem foldl_put {es : List α} : ∀ {l : List α},
    (l ++ es).Pairwise (fun a b => (key a == key b) = false) → es.foldl (put key) l = l ++ es := by
  induction es with
  | nil => exact fun _ => (List.append_nil _).symm
  | cons e es ih =>
    intro l hapart
    have hnew : has key l (key e) = false :=
      not_has_iff.2 fun b hb => (List.pairwise_append.1 hapart).2.2 b hb e (.head _)
    rw [List.foldl_cons, put_of_not_has hnew, ih (by rwa [List.append_assoc]), List.append_assoc]
    rfl

/-- Where only new keys are added, they stay in their order behind the old ones. -/
theorem foldl_putNew {es : List α} (hes : es.Pairwise fun a b => (key a == key b) = false) :
    ∀ l : List α, es.foldl (putNew key) l = l ++ without key es l := by
  induction es with
  | nil => exact fun l => (List.append_nil l).symm
  | cons e es ih =>
    intro l
    rw [List.pairwise_cons] at hes
    rw [List.foldl_cons, putNew, without, List.filter_cons]
    cases hnew : has key l (key e) with
    | true => exact ih hes.2 l
    | false =>
      have hsame : without key es (l ++ [e]) = without key es l := by
        refine List.filter_congr fun a ha => ?_
        have hone : has key [e] (key a) = false :=
          not_has_iff.2 fun b hb => List.mem_singleton.1 hb ▸ hes.1 a ha
        rw [has_append, hone, Bool.or_false]
      rw [if_neg nofun, put_of_not_has hnew, ih hes.2, hsame, List.append_assoc]
      rfl

/-! ## Comparing two lists -/

theorem find?_filter {p : α → Bool} {keep : Bool} (h : ∀ a ∈ l, (key a == k) = true → p a = keep) :
    find? key (l.filter p) k = if keep then find? key l k else none := by
  rw [find?, List.find?_filter]
  cases keep with
  | true =>
    refine List.find?_congr fun a ha => ?_
    cases hak : key a == k with
    | true => rw [h a ha hak]; rfl
    | false => simp
  | false =>
    refine List.find?_eq_none.2 fun a ha => ?_
    cases hak : key a == k with
    | true => rw [h a ha hak]; nofun
    | false => simp

section

variable (hl : ∀ a ∈ l, (key a).Lawful) (ho : ∀ a ∈ others, (key a).Lawful)
include hl ho

theorem find?_within (k : Value) :
    find? key (within key l others) k = if has key others k then find? key l k else none :=
  find?_filter fun a ha hak => has_congr ho (hl a ha) hak

theorem find?_without (k : Value) :
    find? key (without key l others) k = if has key others k then none else find? key l k := by
  rw [without, find?_filter fun a ha hak => congrArg (!·) (has_congr ho (hl a ha) hak)]
  cases has key others k <;> rfl

theorem has_within (k : Value) :
    has key (within key l others) k = (has key l k && has key others k) := by
  rw [← isSome_find?, find?_within hl ho]
  cases has key others k
  · rw [Bool.and_false]
    rfl
  · rw [if_pos rfl, isSome_find?, Bool.and_true]

theorem has_without (k : Value) :
    has key (without key l others) k = (has key l k && !has key others k) := by
  rw [← isSome_find?, find?_without hl ho]
  cases has key others k
  · rw [if_neg nofun, isSome_find?, Bool.not_false, Bool.and_true]
  · rw [Bool.not_true, Bool.and_false]
    rfl

/-- Of two lists one of which is added behind the other, the one in front is looked through first. -/
theorem find?_append_without (k : Value) :
    find? key (l ++ without key others l) k = (find? key l k).or (find? key others k) := by
  rw [find?_append, find?_without ho hl]
  cases hlk : has key l k with
  | true =>
    obtain ⟨a, ha⟩ := Option.isSome_iff_exists.1 (isSome_find?.trans hlk)
    rw [ha, Option.some_or, Option.some_or]
  | false => rfl

/-- An unshared entry is found in the list it is from. -/
theorem find?_unshared (k : Value) :
    find? key (unshared key l others) k =
      if has key l k then if has key others k then none else find? key l k else find? key others k := by
  rw [unshared, find?_append, find?_without hl ho, find?_without ho hl]
  cases hlk : has key l k with
  | true => simp only [reduceIte, Option.or_none]
  | false => simp only [find?_of_not_has hlk, ite_self, Option.none_or, Bool.false_eq_true, reduceIte]

theorem has_unshared (k : Value) :
    has key (unshared key l others) k = (has key l k ^^ has key others k) := by
  rw [unshared, has_append, has_without hl ho, has_without ho hl]
  cases has key l k <;> cases has key others k <;> rfl

end

theorem keyed_within (h : Keyed key l) : Keyed key (within key l others) :=
  h.sublist List.filter_sublist

theorem keyed_without (h : Keyed key l) : Keyed key (without key l others) :=
  h.sublist List.filter_sublist

/-- Entries without the keys of a list can be added behind it. -/
theorem append_without (h : Keyed key l) (ho : Keyed key others) :
    Keyed key (l ++ without key others l) := by
  refine ⟨fun a ha => ?_, List.pairwise_append.2
    ⟨h.apart, ho.keyed_without.apart, fun a ha b hb => ?_⟩⟩
  · rcases List.mem_append.1 ha with ha | ha
    · exact h.lawful a ha
    · exact ho.keyed_without.lawful a ha
  · have hmiss := (List.mem_filter.1 hb).2
    rw [Bool.not_eq_true'] at hmiss
    exact not_has_iff.1 hmiss a ha

theorem keyed_unshared (h : Keyed key l) (ho : Keyed key others) : Keyed key (unshared key l others) :=
  (h.append_without ho).sublist (List.filter_sublist.append_right _)

variable (key) in
theorem length_split (l others : List α) :
    l.length = (within key l others).length + (without key l others).length :=
  List.length_eq_length_filter_add _

/-- A list whose keys are all in another one is no longer. -/
theorem length_le_of_has (h : Keyed key l) (ho : ∀ b ∈ others, (key b).Lawful)
    (hin : ∀ a ∈ l, has key others (key a) = true) : l.length ≤ others.length := by
  by_contra hlt
  have hfound : ∀ a ∈ l, ∃ b ∈ others, eqv (key a) (key b) = true := by
    intro a ha
    obtain ⟨b, hb, hba⟩ := has_iff.1 (hin a ha)
    exact ⟨b, hb, (ho b hb).symm hba⟩
  have hapart : l.Pairwise fun a a' =>
      ∀ b, eqv (key a) (key b) = true → ¬eqv (key a') (key b) = true := by
    refine h.apart.imp_of_mem fun {a a'} ha ha' hne b hb hb' => ?_
    rw [show (key a == key a') = true from
      (h.lawful a ha).eqv_of_found (h.lawful a' ha') hb hb'] at hne
    cases hne
  obtain ⟨cs, hperm, hcs⟩ := exists_perm_of_found (Nat.le_of_not_le hlt) hfound hapart
  exact hlt (Nat.le_of_eq (hcs.length_eq.trans hperm.length_eq))

/-- Lists with the same keys are equally long. -/
theorem length_eq_of_has (h : Keyed key l) (ho : Keyed key others)
    (hsame : ∀ k, has key l k = has key others k) : l.length = others.length :=
  Nat.le_antisymm (h.length_le_of_has ho.lawful fun _ ha => hsame _ ▸ has_key ha)
    (ho.length_le_of_has h.lawful fun _ hb => (hsame _).symm ▸ has_key hb)

/-- Two lists share as many entries as the two share the other way round. -/
theorem length_within_comm (h : Keyed key l) (ho : Keyed key others) :
    (within key l others).length = (within key others l).length :=
  h.keyed_within.length_eq_of_has ho.keyed_within fun k => by
    rw [has_within h.lawful ho.lawful, has_within ho.lawful h.lawful, Bool.and_comm]

theorem unshared_self (l : List α) : unshared key l l = [] := by
  have hnone : without key l l = [] := by
    refine List.filter_eq_nil_iff.2 fun a ha => ?_
    rw [has_key ha]
    nofun
  rw [unshared, hnone, List.append_nil]

theorem length_unshared (h : Keyed key l) (ho : Keyed key others) :
    (unshared key l others).length + 2 * (within key l others).length = l.length + others.length := by
  have hl := length_split key l others
  have hr := length_split key others l
  have hshared := h.length_within_comm ho
  rw [unshared, List.length_append]
  omega

end Keyed

/-! ## Sets and dictionaries

An element of a set is its own key. -/

theorem Items.insert_eq_put : Items.insert = Keyed.put id := by
  funext items v
  induction items with
  | nil => rfl
  | cons x rest ih => rw [insert, Keyed.put, ih]; rfl

theorem Entries.insert_eq_put : Entries.insert = Keyed.put Prod.fst := by
  funext entries e
  induction entries with
  | nil => rfl
  | cons x rest ih => rw [insert, Keyed.put, ih]

end Deferral
