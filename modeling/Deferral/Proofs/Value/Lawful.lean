import Deferral.Proofs.Value.Lookup

/-!
# Equality and digests are lawful

Equality compares sets and dictionaries by size and by looking up each element of the left one in the
right one. That this is symmetric, and that equal sets have equal digests, rests on a count: where no
two elements of the left are equal, what they are found as is all of the right
(`exists_perm_of_found`). A value is *proper* if its sets and dictionaries are like that, at any depth;
`proper_setOf` and `proper_dictOf` say that building them keeps to it.

`lawful_of_proper` goes through all of it by one induction, since symmetry at a set needs both symmetry
and transitivity at its elements. The elements of sequences are compared as they stand in their view,
whatever the split. Tuples may be known to be the same without a look at their elements; a comparison
that makes use of it (`eqvVia`) gives the same answers.
-/

set_option autoImplicit false

namespace Deferral

namespace Value

/-! ## Views -/

theorem eqvItems_iff {as bs : List Value} :
    eqvItems as bs = true ↔ List.Forall₂ (fun a b => eqv a b = true) as bs := by
  induction as generalizing bs with
  | nil => cases bs <;> simp [eqvItems]
  | cons a as ih =>
    cases bs with
    | nil => simp [eqvItems]
    | cons b bs => rw [eqvItems, Bool.and_eq_true, List.forall₂_cons, ih]

theorem allMembers_iff {as bs : List Value} :
    allMembers as bs = true ↔ ∀ a ∈ as, ∃ b ∈ bs, eqv a b = true := by
  induction as with
  | nil => simp [allMembers]
  | cons a as ih => rw [allMembers, Bool.and_eq_true, List.forall_mem_cons, List.any_eq_true, ih]

theorem allEntries_iff {bs : List (Value × Value)} : ∀ {as : List (Value × Value)},
    allEntries as bs = true ↔ ∀ a ∈ as, ∃ b ∈ bs, eqv a.1 b.1 = true ∧ eqv a.2 b.2 = true
  | [] => by simp [allEntries]
  | (k, v) :: as => by
    rw [allEntries, Bool.and_eq_true, List.forall_mem_cons, List.any_eq_true, allEntries_iff]
    simp only [eqvEntry, Bool.and_eq_true]

theorem eqv_tuple_iff {as bs : List Value} :
    eqv (.tuple as) (.tuple bs) = true ↔ List.Forall₂ (fun a b => eqv a b = true) as bs := by
  rw [eqv, eqvItems_iff]

theorem eqvSeq_iff {s : Seq Value} {items : List Value} :
    eqvSeq s items = true ↔ List.Forall₂ (fun a b => eqv a b = true) s.toList items := by
  obtain ⟨front, back⟩ := s
  change _ ↔ List.Forall₂ _ (front ++ back.reverse) items
  rw [eqvSeq, Bool.and_eq_true, eqvItems_iff, eqvItems_iff]
  constructor
  · rintro ⟨hfront, hback⟩
    rw [← List.take_append_drop front.length items]
    refine List.rel_append hfront (List.forall₂_reverse_iff.1 ?_)
    rwa [List.reverse_reverse]
  · intro h
    have hfront := List.forall₂_take front.length h
    have hback := List.forall₂_drop front.length h
    rw [List.take_left] at hfront
    rw [List.drop_left] at hback
    refine ⟨hfront, List.forall₂_reverse_iff.1 ?_⟩
    rwa [List.reverse_reverse]

/-- Sequences are compared through their views. -/
theorem eqv_seq_iff {s t : Seq Value} :
    eqv (.seq s) (.seq t) = true ↔
      List.Forall₂ (fun a b => eqv a b = true) s.toList t.toList := by
  rw [eqv, eqvSeq_iff]

theorem eqv_set_iff {as bs : List Value} :
    eqv (.set as) (.set bs) = true ↔
      as.length = bs.length ∧ ∀ a ∈ as, ∃ b ∈ bs, eqv a b = true := by
  rw [eqv, Bool.and_eq_true, beq_iff_eq, allMembers_iff]

theorem eqv_dict_iff {as bs : List (Value × Value)} :
    eqv (.dict as) (.dict bs) = true ↔ as.length = bs.length ∧
      ∀ a ∈ as, ∃ b ∈ bs, eqv a.1 b.1 = true ∧ eqv a.2 b.2 = true := by
  rw [eqv, Bool.and_eq_true, beq_iff_eq, allEntries_iff]

/-- Values of different variants are different. -/
theorem eqv_of_typeName_ne {a b : Value} (h : a.typeName ≠ b.typeName) : eqv a b = false := by
  cases a <;> cases b <;> first | exact absurd rfl h | rfl

/-! ## What is fed -/

section

variable {digest : List Nat → UInt64}

theorem feedItems_eq (items : List Value) : feedItems digest items = items.flatMap (feed digest) := by
  induction items with
  | nil => rfl
  | cons v rest ih => rw [feedItems, ih, List.flatMap_cons]

theorem feedReversed_eq (items : List Value) :
    feedReversed digest items = items.reverse.flatMap (feed digest) := by
  induction items with
  | nil => rfl
  | cons v rest ih =>
    rw [feedReversed, ih, List.reverse_cons, List.flatMap_append, List.flatMap_singleton]

/-- A sequence feeds its length and its elements in order. -/
theorem feed_seq (s : Seq Value) :
    feed digest (.seq s) = 7 :: s.toList.length :: s.toList.flatMap (feed digest) := by
  obtain ⟨front, back⟩ := s
  rw [feed, feedSeq, feedItems_eq, feedReversed_eq, ← List.flatMap_append, Seq.length_toList]
  rfl

theorem sumItems_perm {as bs : List Value} (h : as.Perm bs) :
    sumItems digest as = sumItems digest bs := by
  induction h with
  | nil => rfl
  | cons a _ ih => rw [sumItems, sumItems, ih]
  | swap a b rest =>
    simp only [sumItems]
    rw [← UInt64.add_assoc, ← UInt64.add_assoc, UInt64.add_comm (digest (feed digest b))]
  | trans _ _ ih ih' => rw [ih, ih']

theorem sumEntries_perm {as bs : List (Value × Value)} (h : as.Perm bs) :
    sumEntries digest as = sumEntries digest bs := by
  induction h with
  | nil => rfl
  | cons a _ ih => rw [sumEntries, sumEntries, ih]
  | swap a b rest =>
    simp only [sumEntries]
    rw [← UInt64.add_assoc, ← UInt64.add_assoc, UInt64.add_comm (digest (feedEntry digest b))]
  | trans _ _ ih ih' => rw [ih, ih']

theorem flatMap_feed_congr {as bs : List Value}
    (h : List.Forall₂ (fun a b => feed digest a = feed digest b) as bs) :
    as.flatMap (feed digest) = bs.flatMap (feed digest) := by
  induction h with
  | nil => rfl
  | cons hab _ ih => rw [List.flatMap_cons, List.flatMap_cons, hab, ih]

theorem sumItems_congr {as bs : List Value}
    (h : List.Forall₂ (fun a b => feed digest a = feed digest b) as bs) :
    sumItems digest as = sumItems digest bs := by
  induction h with
  | nil => rfl
  | cons hab _ ih => rw [sumItems, sumItems, hab, ih]

theorem sumEntries_congr {as bs : List (Value × Value)}
    (h : List.Forall₂ (fun a b => feed digest a.1 = feed digest b.1 ∧ feed digest a.2 = feed digest b.2)
      as bs) :
    sumEntries digest as = sumEntries digest bs := by
  induction h with
  | nil => rfl
  | cons hab _ ih => rw [sumEntries, sumEntries, feedEntry, feedEntry, hab.1, hab.2, ih]

end

/-! ## Proper values -/

/-- No set in the value, at any depth, has two equal elements, and no dictionary two equal keys. -/
inductive Proper : Value → Prop
  | unit : Proper .unit
  | bool (b : Bool) : Proper (.bool b)
  | byte (b : UInt8) : Proper (.byte b)
  | int (n : Int64) : Proper (.int n)
  | float (x : Float) : Proper (.float x)
  | char (c : Char) : Proper (.char c)
  | symbol (name : String) : Proper (.symbol name)
  | function (id : FunctionId) : Proper (.function id)
  | module (m : Module) : Proper (.module m)
  | promise (p : PromiseId) : Proper (.promise p)
  /-- The elements may be split in any way. -/
  | seq (s : Seq Value) (items : ∀ v ∈ s.toList, Proper v) : Proper (.seq s)
  | tuple (vs : List Value) (items : ∀ v ∈ vs, Proper v) : Proper (.tuple vs)
  | set (vs : List Value) (items : ∀ v ∈ vs, Proper v)
      (distinct : vs.Pairwise fun a b => eqv a b = false) : Proper (.set vs)
  | dict (es : List (Value × Value)) (keys : ∀ e ∈ es, Proper e.1) (values : ∀ e ∈ es, Proper e.2)
      (distinct : es.Pairwise fun a b => eqv a.1 b.1 = false) : Proper (.dict es)

end Value

/-- Everything on the right of a matching has something on the left. -/
theorem exists_left_of_mem {α : Type} {R : α → α → Prop} {as bs : List α} (h : List.Forall₂ R as bs)
    {b : α} (hb : b ∈ bs) : ∃ a ∈ as, R a b := by
  induction h with
  | nil => cases hb
  | @cons a _ _ _ hab _ ih =>
    rcases List.mem_cons.1 hb with rfl | hb
    · exact ⟨a, .head _, hab⟩
    · obtain ⟨a, ha, hab⟩ := ih hb
      exact ⟨a, .tail _ ha, hab⟩

namespace Value

/-! ## The laws -/

section

variable {as : List Value} (h : ∀ a ∈ as, Lawful a)
include h

theorem forall₂_symm {bs : List Value} (hab : List.Forall₂ (fun a b => eqv a b = true) as bs) :
    List.Forall₂ (fun a b => eqv a b = true) bs as :=
  ((List.forall₂_and_left as bs).2 ⟨h, hab⟩).flip.imp fun _ _ hba => hba.1.symm hba.2

theorem forall₂_trans {bs cs : List Value} (hab : List.Forall₂ (fun a b => eqv a b = true) as bs)
    (hbc : List.Forall₂ (fun a b => eqv a b = true) bs cs) :
    List.Forall₂ (fun a b => eqv a b = true) as cs := by
  induction hab generalizing cs with
  | nil => exact hbc
  | cons hab _ ih =>
    rw [List.forall_mem_cons] at h
    cases hbc with
    | cons hbc hrest => exact .cons (h.1.trans hab hbc) (ih h.2 hrest)

theorem forall₂_feed (digest : List Nat → UInt64) {bs : List Value}
    (hab : List.Forall₂ (fun a b => eqv a b = true) as bs) :
    List.Forall₂ (fun a b => Value.feed digest a = Value.feed digest b) as bs :=
  ((List.forall₂_and_left as bs).2 ⟨h, hab⟩).imp fun _ _ hab => hab.1.feed digest hab.2

/-- Equal sets have equal elements, in some order. -/
theorem exists_perm_of_eqv_set (hdistinct : as.Pairwise fun a b => eqv a b = false) {bs : List Value}
    (hab : eqv (.set as) (.set bs) = true) :
    ∃ cs, cs.Perm bs ∧ List.Forall₂ (fun a b => eqv a b = true) as cs := by
  obtain ⟨hlen, hfound⟩ := eqv_set_iff.1 hab
  refine exists_perm_of_found (Nat.le_of_eq hlen.symm) hfound (hdistinct.imp_of_mem ?_)
  intro a a' ha ha' hne b hb hb'
  rw [(h a ha).eqv_of_found (h a' ha') hb hb'] at hne
  cases hne

theorem lawful_seq {s : Seq Value} (hs : s.toList = as) : Lawful (.seq s) := by
  subst hs
  refine ⟨fun {b} hb => ?_, fun {b c} hb hc => ?_, fun digest b hb => ?_⟩
  · cases b <;> try cases hb
    exact eqv_seq_iff.2 (forall₂_symm h (eqv_seq_iff.1 hb))
  · cases b <;> try cases hb
    cases c <;> try cases hc
    exact eqv_seq_iff.2 (forall₂_trans h (eqv_seq_iff.1 hb) (eqv_seq_iff.1 hc))
  · cases b <;> try cases hb
    have hitems := eqv_seq_iff.1 hb
    rw [feed_seq, feed_seq, hitems.length_eq, flatMap_feed_congr (forall₂_feed h digest hitems)]

theorem lawful_tuple : Lawful (.tuple as) := by
  refine ⟨fun {b} hb => ?_, fun {b c} hb hc => ?_, fun digest b hb => ?_⟩
  · cases b <;> try cases hb
    exact eqv_tuple_iff.2 (forall₂_symm h (eqv_tuple_iff.1 hb))
  · cases b <;> try cases hb
    cases c <;> try cases hc
    exact eqv_tuple_iff.2 (forall₂_trans h (eqv_tuple_iff.1 hb) (eqv_tuple_iff.1 hc))
  · cases b <;> try cases hb
    have hitems := eqv_tuple_iff.1 hb
    rw [Value.feed, Value.feed, feedItems_eq, feedItems_eq, hitems.length_eq,
      flatMap_feed_congr (forall₂_feed h digest hitems)]

theorem lawful_set (hdistinct : as.Pairwise fun a b => eqv a b = false) : Lawful (.set as) := by
  refine ⟨fun {b} hb => ?_, fun {b c} hb hc => ?_, fun digest b hb => ?_⟩
  · cases b <;> try cases hb
    rename_i bs
    obtain ⟨cs, hperm, hcs⟩ := exists_perm_of_eqv_set h hdistinct hb
    refine eqv_set_iff.2 ⟨(eqv_set_iff.1 hb).1.symm, fun b hbs => ?_⟩
    -- each element of the right is what one of the left is found as
    obtain ⟨a, ha, hab⟩ := exists_left_of_mem hcs (hperm.mem_iff.2 hbs)
    exact ⟨a, ha, (h a ha).symm hab⟩
  · cases b <;> try cases hb
    cases c <;> try cases hc
    obtain ⟨hlen, hfound⟩ := eqv_set_iff.1 hb
    obtain ⟨hlen', hfound'⟩ := eqv_set_iff.1 hc
    refine eqv_set_iff.2 ⟨hlen.trans hlen', fun a ha => ?_⟩
    obtain ⟨b, hbs, hab⟩ := hfound a ha
    obtain ⟨c, hcs, hbc⟩ := hfound' b hbs
    exact ⟨c, hcs, (h a ha).trans hab hbc⟩
  · cases b <;> try cases hb
    obtain ⟨cs, hperm, hcs⟩ := exists_perm_of_eqv_set h hdistinct hb
    rw [Value.feed, Value.feed, (eqv_set_iff.1 hb).1, sumItems_congr (forall₂_feed h digest hcs),
      sumItems_perm hperm]

end

section

variable {as : List (Value × Value)} (hkeys : ∀ e ∈ as, Lawful e.1) (hvalues : ∀ e ∈ as, Lawful e.2)
  (hdistinct : as.Pairwise fun a b => eqv a.1 b.1 = false)
include hkeys hdistinct

/-- Equal dictionaries have equal entries, in some order. -/
theorem exists_perm_of_eqv_dict {bs : List (Value × Value)}
    (hab : eqv (.dict as) (.dict bs) = true) : ∃ cs, cs.Perm bs ∧
      List.Forall₂ (fun a b => eqv a.1 b.1 = true ∧ eqv a.2 b.2 = true) as cs := by
  obtain ⟨hlen, hfound⟩ := eqv_dict_iff.1 hab
  refine exists_perm_of_found (Nat.le_of_eq hlen.symm) hfound (hdistinct.imp_of_mem ?_)
  intro a a' ha ha' hne b hb hb'
  rw [(hkeys a ha).eqv_of_found (hkeys a' ha') hb.1 hb'.1] at hne
  cases hne

include hvalues

theorem lawful_dict : Lawful (.dict as) := by
  refine ⟨fun {b} hb => ?_, fun {b c} hb hc => ?_, fun digest b hb => ?_⟩
  · cases b <;> try cases hb
    rename_i bs
    obtain ⟨cs, hperm, hcs⟩ := exists_perm_of_eqv_dict hkeys hdistinct hb
    refine eqv_dict_iff.2 ⟨(eqv_dict_iff.1 hb).1.symm, fun b hbs => ?_⟩
    obtain ⟨a, ha, hab⟩ := exists_left_of_mem hcs (hperm.mem_iff.2 hbs)
    exact ⟨a, ha, (hkeys a ha).symm hab.1, (hvalues a ha).symm hab.2⟩
  · cases b <;> try cases hb
    cases c <;> try cases hc
    obtain ⟨hlen, hfound⟩ := eqv_dict_iff.1 hb
    obtain ⟨hlen', hfound'⟩ := eqv_dict_iff.1 hc
    refine eqv_dict_iff.2 ⟨hlen.trans hlen', fun a ha => ?_⟩
    obtain ⟨b, hbs, hab⟩ := hfound a ha
    obtain ⟨c, hcs, hbc⟩ := hfound' b hbs
    exact ⟨c, hcs, (hkeys a ha).trans hab.1 hbc.1, (hvalues a ha).trans hab.2 hbc.2⟩
  · cases b <;> try cases hb
    obtain ⟨cs, hperm, hcs⟩ := exists_perm_of_eqv_dict hkeys hdistinct hb
    have hboth : ∀ e ∈ as, Lawful e.1 ∧ Lawful e.2 := fun e he => ⟨hkeys e he, hvalues e he⟩
    have hfed : List.Forall₂
        (fun a b => Value.feed digest a.1 = Value.feed digest b.1 ∧
          Value.feed digest a.2 = Value.feed digest b.2) as cs :=
      ((List.forall₂_and_left as cs).2 ⟨hboth, hcs⟩).imp fun _ _ hab =>
        ⟨hab.1.1.feed digest hab.2.1, hab.1.2.feed digest hab.2.2⟩
    rw [Value.feed, Value.feed, (eqv_dict_iff.1 hb).1, sumEntries_congr hfed, sumEntries_perm hperm]

end

/-- The laws hold at a value whose equals are those of a kind, all of which are equal. -/
theorem lawful_of_kind {a : Value} {P : Value → Prop} (ha : P a)
    (heqv : ∀ b c, P b → (eqv b c = true ↔ P c))
    (hfeed : ∀ (digest : List Nat → UInt64) (b : Value), P b →
      Value.feed digest a = Value.feed digest b) : Lawful a where
  symm hb := (heqv _ a ((heqv a _ ha).1 hb)).2 ha
  trans hb hc := (heqv a _ ha).2 ((heqv _ _ ((heqv a _ ha).1 hb)).1 hc)
  feed digest _ hb := hfeed digest _ ((heqv a _ ha).1 hb)

theorem lawful_float (x : Float) : Lawful (.float x) := by
  refine lawful_of_kind (P := fun b => ∃ y, b = .float y ∧ floatKey x = floatKey y) ⟨x, rfl, rfl⟩ ?_ ?_
  · rintro _ c ⟨y, rfl, hy⟩
    cases c <;> simp [eqv, hy]
  · rintro digest _ ⟨y, rfl, hy⟩
    rw [Value.feed, Value.feed, hy]

theorem lawful_module (m : Module) : Lawful (.module m) := by
  refine lawful_of_kind (P := fun b => ∃ n, b = .module n ∧ m.name = n.name) ⟨m, rfl, rfl⟩ ?_ ?_
  · rintro _ c ⟨n, rfl, hn⟩
    cases c <;> simp [eqv, hn]
  · rintro digest _ ⟨n, rfl, hn⟩
    rw [Value.feed, Value.feed, hn]

/-- The laws hold at every proper value. -/
theorem lawful_of_proper {a : Value} (h : Proper a) : Lawful a := by
  induction h with
  | seq s _ ih => exact lawful_seq ih rfl
  | tuple vs _ ih => exact lawful_tuple ih
  | set vs _ hdistinct ih => exact lawful_set ih hdistinct
  | dict es _ _ hdistinct ihk ihv => exact lawful_dict ihk ihv hdistinct
  | float x => exact lawful_float x
  | module m => exact lawful_module m
  | _ =>
    -- other plain data is equal to nothing but itself
    refine lawful_of_kind rfl (fun b c hb => ?_) fun _ _ hb => congrArg _ hb
    subst hb
    cases c <;> simp [eqv]

/-! ## Building proper values -/

theorem Proper.items {A : Items} (h : Proper (.set A)) : ∀ v ∈ A, Proper v := by
  cases h with
  | set _ hitems _ => exact hitems

theorem Proper.entries {D : Entries} (h : Proper (.dict D)) : ∀ e ∈ D, Proper e.1 ∧ Proper e.2 := by
  cases h with
  | dict _ hkeys hvalues _ => exact fun e he => ⟨hkeys e he, hvalues e he⟩

theorem Proper.keyed_set {A : Items} (h : Proper (.set A)) : Keyed id A := by
  cases h with
  | set _ hitems hdistinct => exact ⟨fun v hv => lawful_of_proper (hitems v hv), hdistinct⟩

theorem Proper.keyed_dict {D : Entries} (h : Proper (.dict D)) : Keyed Prod.fst D := by
  cases h with
  | dict _ hkeys _ hdistinct => exact ⟨fun e he => lawful_of_proper (hkeys e he), hdistinct⟩

theorem proper_set_of_keyed {A : Items} (h : Keyed id A) (hitems : ∀ v ∈ A, Proper v) :
    Proper (.set A) :=
  .set A hitems h.apart

theorem proper_dict_of_keyed {D : Entries} (h : Keyed Prod.fst D)
    (hentries : ∀ e ∈ D, Proper e.1 ∧ Proper e.2) : Proper (.dict D) :=
  .dict D (fun e he => (hentries e he).1) (fun e he => (hentries e he).2) h.apart

theorem proper_insert {v : Value} {items : Items} (h : Proper (.set items)) (hv : Proper v) :
    Proper (.set (items.insert v)) := by
  rw [Items.insert_eq_put]
  refine proper_set_of_keyed (h.keyed_set.keyed_put (lawful_of_proper hv)) fun x hx => ?_
  rcases Keyed.mem_put hx with hx | rfl
  · exact h.items x hx
  · exact hv

theorem proper_insertEntry {e : Value × Value} {entries : Entries} (h : Proper (.dict entries))
    (he : Proper e.1 ∧ Proper e.2) : Proper (.dict (entries.insert e)) := by
  rw [Entries.insert_eq_put]
  refine proper_dict_of_keyed (h.keyed_dict.keyed_put (lawful_of_proper he.1)) fun x hx => ?_
  rcases Keyed.mem_put hx with hx | rfl
  · exact h.entries x hx
  · exact he

theorem proper_foldl_insert : ∀ {vs : List Value} {items : Items}, Proper (.set items) →
    (∀ v ∈ vs, Proper v) → Proper (.set (vs.foldl Items.insert items))
  | [], _, h, _ => h
  | _ :: vs, _, h, hvs =>
    have hvs := List.forall_mem_cons.1 hvs
    @proper_foldl_insert vs _ (proper_insert h hvs.1) hvs.2

theorem proper_foldl_insertEntry : ∀ {es : List (Value × Value)} {entries : Entries},
    Proper (.dict entries) → (∀ e ∈ es, Proper e.1 ∧ Proper e.2) →
    Proper (.dict (es.foldl Entries.insert entries))
  | [], _, h, _ => h
  | _ :: es, _, h, hes =>
    have hes := List.forall_mem_cons.1 hes
    @proper_foldl_insertEntry es _ (proper_insertEntry h hes.1) hes.2

/-- A set that is built from proper elements is proper. -/
theorem proper_setOf {vs : List Value} (h : ∀ v ∈ vs, Proper v) : Proper (setOf vs) :=
  proper_foldl_insert (.set [] nofun .nil) h

/-- A dictionary that is built from proper entries is proper. -/
theorem proper_dictOf {es : List (Value × Value)} (h : ∀ e ∈ es, Proper e.1 ∧ Proper e.2) :
    Proper (dictOf es) :=
  proper_foldl_insertEntry (.dict [] nofun nofun .nil) h

/-! ## Tuples that are known to be the same -/

mutual

/-- Equality, where tuples that `same` knows to be the same are not compared. -/
def eqvVia (same : List Value → List Value → Bool) : Value → Value → Bool
  | .seq a, .seq b => eqvSeqVia same a b.toList
  | .tuple a, .tuple b => same a b || eqvItemsVia same a b
  | .set a, .set b => a.length == b.length && allMembersVia same a b
  | .dict a, .dict b => a.length == b.length && allEntriesVia same a b
  | a, b => eqv a b
termination_by structural a _ => a

def eqvSeqVia (same : List Value → List Value → Bool) : Seq Value → List Value → Bool
  | ⟨front, back⟩, items =>
    eqvItemsVia same front (items.take front.length) &&
      eqvItemsVia same back (items.drop front.length).reverse
termination_by structural a _ => a

def eqvItemsVia (same : List Value → List Value → Bool) : List Value → List Value → Bool
  | [], [] => true
  | a :: as, b :: bs => eqvVia same a b && eqvItemsVia same as bs
  | _, _ => false
termination_by structural a _ => a

def allMembersVia (same : List Value → List Value → Bool) : List Value → List Value → Bool
  | [], _ => true
  | a :: as, items => items.any (fun b => eqvVia same a b) && allMembersVia same as items
termination_by structural a _ => a

def allEntriesVia (same : List Value → List Value → Bool) :
    List (Value × Value) → List (Value × Value) → Bool
  | [], _ => true
  | e :: rest, entries =>
    entries.any (fun f => eqvEntryVia same e f) && allEntriesVia same rest entries
termination_by structural a _ => a

def eqvEntryVia (same : List Value → List Value → Bool) : Value × Value → Value × Value → Bool
  | (k, v), e => eqvVia same k e.1 && eqvVia same v e.2
termination_by structural a _ => a

end

section

variable {same : List Value → List Value → Bool}

mutual

/-- Where two tuples are the same, their elements are equal; so nothing changes. -/
theorem eqvVia_eq (hsame : ∀ a b, same a b = true → a = b) :
    ∀ a b : Value, eqvVia same a b = eqv a b
  | .seq a, b => by
    cases b with
    | seq b => rw [eqvVia, eqv, eqvSeqVia_eq hsame a b.toList]
    | _ => rfl
  | .tuple a, b => by
    cases b with
    | tuple b =>
      rw [eqvVia, eqv, eqvItemsVia_eq hsame a b]
      cases hab : same a b with
      | false => rfl
      | true =>
        obtain rfl := hsame a b hab
        rw [eqvItems_refl, Bool.true_or]
    | _ => rfl
  | .set a, b => by
    cases b with
    | set b => rw [eqvVia, eqv, allMembersVia_eq hsame a b]
    | _ => rfl
  | .dict a, b => by
    cases b with
    | dict b => rw [eqvVia, eqv, allEntriesVia_eq hsame a b]
    | _ => rfl
  | .unit, _ | .bool _, _ | .byte _, _ | .int _, _ | .float _, _ | .char _, _ | .symbol _, _
  | .function _, _ | .module _, _ | .promise _, _ => rfl
termination_by structural a _ => a

theorem eqvSeqVia_eq (hsame : ∀ a b, same a b = true → a = b) :
    ∀ (a : Seq Value) (items : List Value), eqvSeqVia same a items = eqvSeq a items
  | ⟨front, back⟩, items => by
    rw [eqvSeqVia, eqvSeq, eqvItemsVia_eq hsame front, eqvItemsVia_eq hsame back]
termination_by structural a _ => a

theorem eqvItemsVia_eq (hsame : ∀ a b, same a b = true → a = b) :
    ∀ as bs : List Value, eqvItemsVia same as bs = eqvItems as bs
  | [], [] => rfl
  | [], _ :: _ => rfl
  | _ :: _, [] => rfl
  | a :: as, b :: bs => by rw [eqvItemsVia, eqvItems, eqvVia_eq hsame a b, eqvItemsVia_eq hsame as bs]
termination_by structural a _ => a

theorem allMembersVia_eq (hsame : ∀ a b, same a b = true → a = b) :
    ∀ as bs : List Value, allMembersVia same as bs = allMembers as bs
  | [], _ => rfl
  | a :: as, bs => by
    rw [allMembersVia, allMembers, allMembersVia_eq hsame as bs]
    simp only [eqvVia_eq hsame a]
termination_by structural a _ => a

theorem allEntriesVia_eq (hsame : ∀ a b, same a b = true → a = b) :
    ∀ as bs : List (Value × Value), allEntriesVia same as bs = allEntries as bs
  | [], _ => rfl
  | e :: as, bs => by
    rw [allEntriesVia, allEntries, allEntriesVia_eq hsame as bs]
    simp only [eqvEntryVia_eq hsame e]
termination_by structural a _ => a

theorem eqvEntryVia_eq (hsame : ∀ a b, same a b = true → a = b) :
    ∀ e f : Value × Value, eqvEntryVia same e f = eqvEntry e f
  | (k, v), f => by rw [eqvEntryVia, eqvEntry, eqvVia_eq hsame k, eqvVia_eq hsame v]
termination_by structural a _ => a

end

end

/-- Equality of values is an equivalence that tells variants apart, and equal values feed the same words
to every hash function, whatever hashes the elements of their sets and dictionaries; so they have the
same digest. A comparison that does not look into tuples it knows to be the same gives the same
answer. -/
theorem equality_lawful {a b c : Value} (ha : Proper a) (hb : Proper b) :
    (a == a) = true ∧ (a == b) = (b == a) ∧
    ((a == b) = true → (b == c) = true → (a == c) = true) ∧
    (a.typeName ≠ b.typeName → (a == b) = false) ∧
    ((a == b) = true → (∀ digest, feed digest a = feed digest b) ∧ a.digest = b.digest) ∧
    ∀ same : List Value → List Value → Bool, (∀ x y, same x y = true → x = y) →
      eqvVia same a b = (a == b) := by
  have hla := lawful_of_proper ha
  have hlb := lawful_of_proper hb
  refine ⟨beq_refl a, Bool.eq_iff_iff.2 ⟨hla.symm, hlb.symm⟩, hla.trans, eqv_of_typeName_ne,
    fun hab => ⟨fun digest => hla.feed digest hab, ?_⟩, fun same hsame => eqvVia_eq hsame a b⟩
  rw [Value.digest, Value.digest, hla.feed mix hab]

/-- A dictionary inside a set, with a not-a-number and a zero; `turned` stores the same in another order,
with other bits and with the sequence split at another place. -/
def medley : Value :=
  setOf [.float (Float.ofBits 0x7ff8000000000000), dictOf [(.float 0.0, .byte 1), (.int 2, .unit)],
    .seq ⟨[.int 1, .int 2], []⟩]

def turned : Value :=
  setOf [.seq ⟨[.int 1], [.int 2]⟩, dictOf [(.int 2, .unit), (.float (-0.0), .byte 1)],
    .float (Float.ofBits 0xfff8000000000001)]

theorem equality_lawful_turned :
    Proper medley ∧ Proper turned ∧ (medley == turned) = true ∧ (turned == medley) = true ∧
      medley.digest = turned.digest := by
  have hmedley : Proper medley := by
    apply proper_setOf
    simp only [List.forall_mem_cons]
    refine ⟨.float _, proper_dictOf ?_, .seq _ ?_, List.forall_mem_nil _⟩
    · simp only [List.forall_mem_cons]
      exact ⟨⟨.float _, .byte _⟩, ⟨.int _, .unit⟩, List.forall_mem_nil _⟩
    · simp only [Seq.toList, List.reverse_nil, List.append_nil, List.forall_mem_cons]
      exact ⟨.int _, .int _, List.forall_mem_nil _⟩
  have hturned : Proper turned := by
    apply proper_setOf
    simp only [List.forall_mem_cons]
    refine ⟨.seq _ ?_, proper_dictOf ?_, .float _, List.forall_mem_nil _⟩
    · simp only [Seq.toList, List.reverse_singleton, List.singleton_append, List.forall_mem_cons]
      exact ⟨.int _, .int _, List.forall_mem_nil _⟩
    · simp only [List.forall_mem_cons]
      exact ⟨⟨.int _, .unit⟩, ⟨.float _, .byte _⟩, List.forall_mem_nil _⟩
  have heq : (medley == turned) = true := by decide
  obtain ⟨-, hsymm, -, -, hdigest, -⟩ :=
    equality_lawful (a := medley) (b := turned) (c := medley) hmedley hturned
  exact ⟨hmedley, hturned, heq, hsymm ▸ heq, (hdigest heq).2⟩

end Value

end Deferral
