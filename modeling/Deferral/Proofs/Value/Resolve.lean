import Deferral.Error
import Deferral.Proofs.Value.Lawful

/-!
# Values whose promises are fulfilled

A value is *promise-free* if no promise is inside it, at any depth. `resolve` puts what promises hold
in their places, wherever they are inside tuples and sequences, and `peel` does so at the top alone.

Equality compares a promise by identity, so it does not look through the promises inside two values.
Where all of them are fulfilled, `eqv_iff_resolve` says how that compares with equality of what they
stand for: two values are equal exactly if they stand for the same and are `Alike`, that is, have the
same promises at the same places.
-/

set_option autoImplicit false

namespace Deferral

namespace Value

/-! ## Promise-free values -/

mutual

/-- No promise inside. -/
def promiseFree : Value → Bool
  | .seq s => promiseFreeSeq s
  | .tuple items => promiseFreeItems items
  | .set items => promiseFreeItems items
  | .dict entries => promiseFreeEntries entries
  | .promise _ => false
  | _ => true
termination_by structural v => v

def promiseFreeSeq : Seq Value → Bool
  | ⟨front, back⟩ => promiseFreeItems front && promiseFreeItems back
termination_by structural v => v

def promiseFreeItems : List Value → Bool
  | [] => true
  | v :: rest => promiseFree v && promiseFreeItems rest
termination_by structural v => v

def promiseFreeEntries : List (Value × Value) → Bool
  | [] => true
  | e :: rest => promiseFreeEntry e && promiseFreeEntries rest
termination_by structural v => v

def promiseFreeEntry : Value × Value → Bool
  | (k, v) => promiseFree k && promiseFree v
termination_by structural v => v

end

theorem promiseFreeItems_iff (items : List Value) :
    promiseFreeItems items = true ↔ ∀ v ∈ items, v.promiseFree = true := by
  induction items with
  | nil => simp [promiseFreeItems]
  | cons v rest ih => simp [promiseFreeItems, ih]

theorem promiseFreeEntries_iff (entries : List (Value × Value)) :
    promiseFreeEntries entries = true ↔
      ∀ e ∈ entries, e.1.promiseFree = true ∧ e.2.promiseFree = true := by
  induction entries with
  | nil => simp [promiseFreeEntries]
  | cons e rest ih =>
    obtain ⟨k, v⟩ := e
    simp [promiseFreeEntries, promiseFreeEntry, ih]

@[simp] theorem promiseFree_tuple (items : List Value) :
    (tuple items).promiseFree = true ↔ ∀ v ∈ items, v.promiseFree = true := by
  rw [promiseFree, promiseFreeItems_iff]

@[simp] theorem promiseFree_dict (entries : List (Value × Value)) :
    (dict entries).promiseFree = true ↔
      ∀ e ∈ entries, e.1.promiseFree = true ∧ e.2.promiseFree = true := by
  rw [promiseFree, promiseFreeEntries_iff]

@[simp] theorem promiseFree_seq (s : Seq Value) :
    (seq s).promiseFree = true ↔ ∀ v ∈ s.toList, v.promiseFree = true := by
  obtain ⟨front, back⟩ := s
  rw [promiseFree, promiseFreeSeq, Bool.and_eq_true, promiseFreeItems_iff, promiseFreeItems_iff,
    ← List.forall_mem_append]
  simp only [Seq.toList, List.mem_append, List.mem_reverse]

@[simp] theorem promiseFree_seqOf (items : List Value) :
    (seqOf items).promiseFree = true ↔ ∀ v ∈ items, v.promiseFree = true := by
  rw [seqOf, promiseFree_seq, Seq.toList_ofList]

/-! ## Putting in what promises hold -/

section

variable (held : PromiseId → Option Outcome)

/-- What a promise at the top of a value holds, if it is fulfilled, in its place. -/
def peel : Value → Value
  | .promise p =>
    match held p with
    | some (.ok v) => v
    | _ => .promise p
  | v => v

mutual

/-- What fulfilled promises hold in their places, at any depth inside tuples and sequences. -/
def resolve : Value → Value
  | .promise p => peel held (.promise p)
  | .tuple items => .tuple (resolveItems items)
  | .seq s => .seq (resolveSeq s)
  | v => v
termination_by structural v => v

def resolveSeq : Seq Value → Seq Value
  | ⟨front, back⟩ => ⟨resolveItems front, resolveItems back⟩
termination_by structural v => v

def resolveItems : List Value → List Value
  | [] => []
  | v :: rest => resolve v :: resolveItems rest
termination_by structural v => v

end

end

variable {held : PromiseId → Option Outcome}

theorem peel_fulfilled {p : PromiseId} {v : Value} (h : held p = some (.ok v)) :
    peel held (.promise p) = v := by
  rw [peel, h]

theorem peel_of_promiseFree {v : Value} (h : v.promiseFree = true) : v.peel held = v := by
  cases v with
  | promise p => cases h
  | _ => rfl

theorem resolveItems_eq (items : List Value) : resolveItems held items = items.map (resolve held) := by
  induction items with
  | nil => rfl
  | cons v rest ih => rw [resolveItems, ih, List.map_cons]

@[simp] theorem resolve_tuple (items : List Value) :
    resolve held (.tuple items) = .tuple (items.map (resolve held)) := by
  rw [resolve, resolveItems_eq]

@[simp] theorem toList_resolveSeq (s : Seq Value) :
    (resolveSeq held s).toList = s.toList.map (resolve held) := by
  obtain ⟨front, back⟩ := s
  rw [resolveSeq, resolveItems_eq, resolveItems_eq]
  simp only [Seq.toList, List.map_append, List.map_reverse]

/-! ## Values all of whose promises are fulfilled -/

/-- Every promise in the value is inside tuples and sequences alone, and holds a promise-free value. -/
inductive Fulfilled (held : PromiseId → Option Outcome) : Value → Prop
  | plain {v : Value} (free : v.promiseFree = true) : Fulfilled held v
  | promise {p : PromiseId} {v : Value} (holds : held p = some (.ok v)) (free : v.promiseFree = true) :
      Fulfilled held (.promise p)
  | tuple {vs : List Value} (items : ∀ v ∈ vs, Fulfilled held v) : Fulfilled held (.tuple vs)
  | seq {s : Seq Value} (items : ∀ v ∈ s.toList, Fulfilled held v) : Fulfilled held (.seq s)

/-- The same promises stand at the same places inside tuples and sequences, and no others. -/
inductive Alike : Value → Value → Prop
  | plain {v w : Value} (left : v.promiseFree = true) (right : w.promiseFree = true) : Alike v w
  | promise (p : PromiseId) : Alike (.promise p) (.promise p)
  | tuple {vs ws : List Value} (length : vs.length = ws.length)
      (items : ∀ {v w}, (v, w) ∈ vs.zip ws → Alike v w) : Alike (.tuple vs) (.tuple ws)
  | seq {s t : Seq Value} (length : s.toList.length = t.toList.length)
      (items : ∀ {v w}, (v, w) ∈ s.toList.zip t.toList → Alike v w) : Alike (.seq s) (.seq t)

mutual

theorem resolve_of_promiseFree : ∀ v : Value, v.promiseFree = true → v.resolve held = v
  | .seq ⟨front, back⟩, h => by
    rw [promiseFree, promiseFreeSeq, Bool.and_eq_true] at h
    rw [resolve, resolveSeq, resolveItems_of_promiseFree front h.1,
      resolveItems_of_promiseFree back h.2]
  | .tuple items, h => by
    rw [promiseFree] at h
    rw [resolve, resolveItems_of_promiseFree items h]
  | .promise _, h => by cases h
  | .unit, _ | .bool _, _ | .byte _, _ | .int _, _ | .float _, _ | .char _, _ | .symbol _, _
  | .set _, _ | .dict _, _ | .function _, _ | .module _, _ => rfl
termination_by structural v => v

theorem resolveItems_of_promiseFree :
    ∀ items : List Value, promiseFreeItems items = true → resolveItems held items = items
  | [], _ => rfl
  | v :: rest, h => by
    rw [promiseFreeItems, Bool.and_eq_true] at h
    rw [resolveItems, resolve_of_promiseFree v h.1, resolveItems_of_promiseFree rest h.2]
termination_by structural v => v

end

/-- The elements of a tuple whose promises are fulfilled are like that. -/
theorem Fulfilled.of_tuple {vs : List Value} (h : Fulfilled held (.tuple vs)) :
    ∀ v ∈ vs, Fulfilled held v := by
  cases h with
  | plain free => exact fun v hv => .plain ((promiseFree_tuple vs).1 free v hv)
  | tuple items => exact items

theorem Fulfilled.of_seq {s : Seq Value} (h : Fulfilled held (.seq s)) :
    ∀ v ∈ s.toList, Fulfilled held v := by
  cases h with
  | plain free => exact fun v hv => .plain ((promiseFree_seq s).1 free v hv)
  | seq items => exact items

theorem Alike.of_tuple {vs ws : List Value} (h : Alike (.tuple vs) (.tuple ws)) {v w : Value}
    (hvw : (v, w) ∈ vs.zip ws) : Alike v w := by
  cases h with
  | plain left right =>
    obtain ⟨hv, hw⟩ := List.of_mem_zip hvw
    exact .plain ((promiseFree_tuple vs).1 left v hv) ((promiseFree_tuple ws).1 right w hw)
  | tuple _ items => exact items hvw

theorem Alike.of_seq {s t : Seq Value} (h : Alike (.seq s) (.seq t)) {v w : Value}
    (hvw : (v, w) ∈ s.toList.zip t.toList) : Alike v w := by
  cases h with
  | plain left right =>
    obtain ⟨hv, hw⟩ := List.of_mem_zip hvw
    exact .plain ((promiseFree_seq s).1 left v hv) ((promiseFree_seq t).1 right w hw)
  | seq _ items => exact items hvw

/-- What equals a promise-free value is promise-free. -/
theorem Fulfilled.promiseFree_of_eqv {a b : Value} (hb : Fulfilled held b) (ha : a.promiseFree = true)
    (hab : eqv a b = true) : b.promiseFree = true := by
  induction hb generalizing a with
  | plain free => exact free
  | promise =>
    cases a <;> try cases hab
    cases ha
  | tuple items ih =>
    cases a <;> try cases hab
    rw [promiseFree_tuple] at ha ⊢
    intro w hw
    obtain ⟨v, hv, hvw⟩ := exists_left_of_mem (eqv_tuple_iff.1 hab) hw
    exact ih w hw (ha v hv) hvw
  | seq items ih =>
    cases a <;> try cases hab
    rw [promiseFree_seq] at ha ⊢
    intro w hw
    obtain ⟨v, hv, hvw⟩ := exists_left_of_mem (eqv_seq_iff.1 hab) hw
    exact ih w hw (ha v hv) hvw

/-- What goes over from each element to the one at its place goes over to all. -/
theorem forall_mem_of_zip {P : Value → Prop} {vs ws : List Value} (length : vs.length = ws.length)
    (h : ∀ {v w}, (v, w) ∈ vs.zip ws → P v → P w) (hvs : ∀ v ∈ vs, P v) : ∀ w ∈ ws, P w := by
  intro w hw
  obtain ⟨v, hv, hvw⟩ := exists_left_of_mem (List.forall₂_iff_zip.2 ⟨length, h⟩) hw
  exact hvw (hvs v hv)

/-- What is like a promise-free value is promise-free. -/
theorem Alike.promiseFree {a b : Value} (h : Alike a b) (ha : a.promiseFree = true) :
    b.promiseFree = true := by
  induction h with
  | plain left right => exact right
  | promise p => exact ha
  | tuple length items ih =>
    rw [promiseFree_tuple] at ha ⊢
    exact forall_mem_of_zip length ih ha
  | seq length items ih =>
    rw [promiseFree_seq] at ha ⊢
    exact forall_mem_of_zip length ih ha

/-- Equality of lists of elements, where it is known at the elements. -/
theorem forall₂_eqv_iff {vs ws : List Value}
    (h : ∀ v ∈ vs, ∀ w ∈ ws,
      (eqv v w = true ↔ eqv (v.resolve held) (w.resolve held) = true ∧ Alike v w)) :
    List.Forall₂ (fun v w => eqv v w = true) vs ws ↔
      List.Forall₂ (fun v w => eqv v w = true) (vs.map (resolve held)) (ws.map (resolve held)) ∧
        ∀ {v w}, (v, w) ∈ vs.zip ws → Alike v w := by
  have h : ∀ {v w}, (v, w) ∈ vs.zip ws →
      (eqv v w = true ↔ eqv (v.resolve held) (w.resolve held) = true ∧ Alike v w) := by
    intro v w hvw
    obtain ⟨hv, hw⟩ := List.of_mem_zip hvw
    exact h v hv w hw
  rw [List.forall₂_map_left_iff, List.forall₂_map_right_iff, List.forall₂_iff_zip,
    List.forall₂_iff_zip]
  constructor
  · rintro ⟨hlen, hitems⟩
    exact ⟨⟨hlen, fun hvw => ((h hvw).1 (hitems hvw)).1⟩, fun hvw => ((h hvw).1 (hitems hvw)).2⟩
  · rintro ⟨⟨hlen, hitems⟩, halike⟩
    exact ⟨hlen, fun hvw => (h hvw).2 ⟨hitems hvw, halike hvw⟩⟩

/-- Two values all of whose promises are fulfilled are equal exactly if they stand for the same and have
the same promises at the same places. -/
theorem eqv_iff_resolve {a b : Value} (ha : Fulfilled held a) (hb : Fulfilled held b) :
    eqv a b = true ↔ eqv (a.resolve held) (b.resolve held) = true ∧ Alike a b := by
  induction ha generalizing b with
  | plain free =>
    constructor
    · intro hab
      have free' := hb.promiseFree_of_eqv free hab
      rw [resolve_of_promiseFree _ free, resolve_of_promiseFree _ free']
      exact ⟨hab, .plain free free'⟩
    · rintro ⟨hab, alike⟩
      rwa [resolve_of_promiseFree _ free, resolve_of_promiseFree _ (alike.promiseFree free)] at hab
  | promise holds free =>
    constructor
    · intro hab
      cases b <;> try cases hab
      rename_i p _ q
      obtain rfl : p = q := eq_of_beq hab
      exact ⟨eqv_refl _, .promise p⟩
    · rintro ⟨-, alike⟩
      cases alike with
      | plain left => cases left
      | promise => exact eqv_refl _
  | tuple items ih =>
    constructor
    · intro hab
      cases b <;> try cases hab
      have hiff := forall₂_eqv_iff fun v hv w hw => ih v hv (hb.of_tuple w hw)
      have hitems := eqv_tuple_iff.1 hab
      rw [resolve_tuple, resolve_tuple, eqv_tuple_iff]
      exact ⟨(hiff.1 hitems).1, .tuple hitems.length_eq (hiff.1 hitems).2⟩
    · rintro ⟨hab, alike⟩
      rw [resolve_tuple] at hab
      cases b <;> try cases hab
      · rw [resolve_tuple, eqv_tuple_iff] at hab
        exact eqv_tuple_iff.2 ((forall₂_eqv_iff fun v hv w hw => ih v hv (hb.of_tuple w hw)).2
          ⟨hab, alike.of_tuple⟩)
      · cases alike with
        | plain _ right => cases right
  | seq items ih =>
    constructor
    · intro hab
      cases b <;> try cases hab
      have hiff := forall₂_eqv_iff fun v hv w hw => ih v hv (hb.of_seq w hw)
      have hitems := eqv_seq_iff.1 hab
      rw [resolve, resolve, eqv_seq_iff, toList_resolveSeq, toList_resolveSeq]
      exact ⟨(hiff.1 hitems).1, .seq hitems.length_eq (hiff.1 hitems).2⟩
    · rintro ⟨hab, alike⟩
      rw [resolve] at hab
      cases b <;> try cases hab
      · rw [resolve, eqv_seq_iff, toList_resolveSeq, toList_resolveSeq] at hab
        exact eqv_seq_iff.2 ((forall₂_eqv_iff fun v hv w hw => ih v hv (hb.of_seq w hw)).2
          ⟨hab, alike.of_seq⟩)
      · cases alike with
        | plain _ right => cases right

theorem Fulfilled.peel {v : Value} (h : Fulfilled held v) : Fulfilled held (v.peel held) := by
  cases h with
  | plain free =>
    rw [peel_of_promiseFree free]
    exact .plain free
  | promise holds free =>
    rw [peel_fulfilled holds]
    exact .plain free
  | tuple items => exact .tuple items
  | seq items => exact .seq items

/-- Looking through the top does not change what a value stands for. -/
theorem Fulfilled.resolve_peel {v : Value} (h : Fulfilled held v) :
    (v.peel held).resolve held = v.resolve held := by
  cases h with
  | plain free => rw [peel_of_promiseFree free]
  | promise holds free => rw [resolve, peel_fulfilled holds, resolve_of_promiseFree _ free]
  | tuple items => rfl
  | seq items => rfl

/-- A value is in a sequence exactly if an element stands for the same and is like it. -/
theorem contains_iff_resolve {s : Seq Value} {v : Value} (hs : Fulfilled held (.seq s))
    (hv : Fulfilled held v) :
    s.contains v = true ↔
      ∃ w ∈ s.toList, eqv (w.resolve held) (v.resolve held) = true ∧ Alike w v := by
  rw [Seq.contains, List.any_eq_true]
  exact exists_congr fun w => and_congr_right fun hw => eqv_iff_resolve (hs.of_seq w hw) hv

end Value

end Deferral
