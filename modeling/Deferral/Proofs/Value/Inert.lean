import Deferral.Operator.Compute
import Deferral.Proofs.Value.Lookup

/-!
# Values without promises

A value is *inert* if no promise and no module is inside it, and every function inside it is one of
those that are allowed. Data is what is inert when no function is allowed. Inert values are closed under
everything programs compute with: the operators (`compute_inert`), sets and dictionaries.
-/

set_option autoImplicit false

namespace Deferral

namespace Value

mutual

/-- No promise and no module inside, and no function but the allowed ones. -/
def inert (allowed : FunctionId → Bool) : Value → Bool
  | .seq s => inertSeq allowed s
  | .tuple items => inertItems allowed items
  | .set items => inertItems allowed items
  | .dict entries => inertEntries allowed entries
  | .function id => allowed id
  | .module _ => false
  | .promise _ => false
  | _ => true
termination_by structural v => v

def inertSeq (allowed : FunctionId → Bool) : Seq Value → Bool
  | ⟨front, back⟩ => inertItems allowed front && inertItems allowed back
termination_by structural v => v

def inertItems (allowed : FunctionId → Bool) : List Value → Bool
  | [] => true
  | v :: rest => inert allowed v && inertItems allowed rest
termination_by structural v => v

def inertEntries (allowed : FunctionId → Bool) : List (Value × Value) → Bool
  | [] => true
  | e :: rest => inertEntry allowed e && inertEntries allowed rest
termination_by structural v => v

def inertEntry (allowed : FunctionId → Bool) : Value × Value → Bool
  | (k, v) => inert allowed k && inert allowed v
termination_by structural v => v

end

/-- Data: no function, module or promise inside. -/
def isData (v : Value) : Bool := v.inert fun _ => false

variable {allowed : FunctionId → Bool}

theorem inertItems_iff (items : List Value) :
    inertItems allowed items = true ↔ ∀ v ∈ items, v.inert allowed = true := by
  induction items with
  | nil => simp [inertItems]
  | cons v rest ih => simp [inertItems, ih]

theorem inertEntries_iff (entries : List (Value × Value)) :
    inertEntries allowed entries = true ↔
      ∀ e ∈ entries, e.1.inert allowed = true ∧ e.2.inert allowed = true := by
  induction entries with
  | nil => simp [inertEntries]
  | cons e rest ih =>
    obtain ⟨k, v⟩ := e
    simp [inertEntries, inertEntry, ih]

@[simp] theorem inert_tuple (items : List Value) :
    (tuple items).inert allowed = true ↔ ∀ v ∈ items, v.inert allowed = true := by
  rw [inert, inertItems_iff]

@[simp] theorem inert_set (items : List Value) :
    (set items).inert allowed = true ↔ ∀ v ∈ items, v.inert allowed = true := by
  rw [inert, inertItems_iff]

@[simp] theorem inert_dict (entries : List (Value × Value)) :
    (dict entries).inert allowed = true ↔
      ∀ e ∈ entries, e.1.inert allowed = true ∧ e.2.inert allowed = true := by
  rw [inert, inertEntries_iff]

@[simp] theorem inert_seq (s : Seq Value) :
    (seq s).inert allowed = true ↔ ∀ v ∈ s.toList, v.inert allowed = true := by
  obtain ⟨front, back⟩ := s
  rw [inert, inertSeq, Bool.and_eq_true, inertItems_iff, inertItems_iff]
  simp only [Seq.toList, List.mem_append, List.mem_reverse]
  constructor
  · rintro ⟨hf, hb⟩ v (hv | hv)
    · exact hf v hv
    · exact hb v hv
  · intro h
    exact ⟨fun v hv => h v (.inl hv), fun v hv => h v (.inr hv)⟩

@[simp] theorem inert_seqOf (items : List Value) :
    (seqOf items).inert allowed = true ↔ ∀ v ∈ items, v.inert allowed = true := by
  rw [seqOf, inert_seq, Seq.toList_ofList]

theorem inert_ofText (text : String) : (ofText text).inert allowed = true := by
  rw [ofText, inert_seqOf]
  intro v hv
  obtain ⟨c, -, rfl⟩ := List.mem_map.1 hv
  rfl

theorem isPromise_of_inert {v : Value} (h : v.inert allowed = true) : v.isPromise = false := by
  cases v with
  | promise p => simp [inert] at h
  | _ => rfl

theorem ne_promise_of_inert {v : Value} (h : v.inert allowed = true) (p : PromiseId) :
    v ≠ .promise p := by
  rintro rfl
  simp [inert] at h

mutual

theorem inert_mono {allowed' : FunctionId → Bool}
    (h : ∀ id, allowed id = true → allowed' id = true) :
    ∀ v : Value, v.inert allowed = true → v.inert allowed' = true
  | .seq ⟨front, back⟩, hv => by
    rw [inert, inertSeq, Bool.and_eq_true] at hv ⊢
    exact ⟨inertItems_mono h front hv.1, inertItems_mono h back hv.2⟩
  | .tuple items, hv => inertItems_mono h items hv
  | .set items, hv => inertItems_mono h items hv
  | .dict entries, hv => inertEntries_mono h entries hv
  | .function id, hv => h id hv
  | .module _, hv => by simp [inert] at hv
  | .promise _, hv => by simp [inert] at hv
  | .unit, _ => rfl
  | .bool _, _ => rfl
  | .byte _, _ => rfl
  | .int _, _ => rfl
  | .float _, _ => rfl
  | .char _, _ => rfl
  | .symbol _, _ => rfl
termination_by structural v => v

theorem inertItems_mono {allowed' : FunctionId → Bool}
    (h : ∀ id, allowed id = true → allowed' id = true) :
    ∀ items : List Value, inertItems allowed items = true → inertItems allowed' items = true
  | [], _ => rfl
  | v :: rest, hv => by
    rw [inertItems, Bool.and_eq_true] at hv ⊢
    exact ⟨inert_mono h v hv.1, inertItems_mono h rest hv.2⟩
termination_by structural v => v

theorem inertEntries_mono {allowed' : FunctionId → Bool}
    (h : ∀ id, allowed id = true → allowed' id = true) :
    ∀ es : List (Value × Value), inertEntries allowed es = true → inertEntries allowed' es = true
  | [], _ => rfl
  | (k, v) :: rest, hv => by
    rw [inertEntries, inertEntry, Bool.and_eq_true, Bool.and_eq_true] at hv ⊢
    exact ⟨⟨inert_mono h k hv.1.1, inert_mono h v hv.1.2⟩, inertEntries_mono h rest hv.2⟩
termination_by structural v => v

end

/-- Data is inert whatever is allowed. -/
theorem inert_of_isData {v : Value} (h : v.isData = true) : v.inert allowed = true :=
  inert_mono (fun _ h => by cases h) v h

end Value

/-! ## Sets and dictionaries -/

theorem Items.mem_ofList {x : Value} {vs : List Value} (h : x ∈ Items.ofList vs) : x ∈ vs := by
  rw [ofList, insert_eq_put] at h
  exact (Keyed.mem_foldl_put h).resolve_left nofun

theorem Entries.mem_ofList {x : Value × Value} {es : List (Value × Value)} (h : x ∈ Entries.ofList es) :
    x ∈ es := by
  rw [ofList, insert_eq_put] at h
  exact (Keyed.mem_foldl_put h).resolve_left nofun

namespace Value

variable {allowed : FunctionId → Bool}

theorem inert_setOf {vs : List Value} (h : ∀ v ∈ vs, v.inert allowed = true) :
    (setOf vs).inert allowed = true := by
  rw [setOf, inert_set]
  exact fun x hx => h x (Items.mem_ofList hx)

theorem inert_dictOf {es : List (Value × Value)}
    (h : ∀ e ∈ es, e.1.inert allowed = true ∧ e.2.inert allowed = true) :
    (dictOf es).inert allowed = true := by
  rw [dictOf, inert_dict]
  exact fun x hx => h x (Entries.mem_ofList hx)

theorem inert_pairUp : ∀ {vs : List Value}, (∀ v ∈ vs, v.inert allowed = true) →
    ∀ e ∈ pairUp vs, e.1.inert allowed = true ∧ e.2.inert allowed = true
  | [], _, _, he => by cases he
  | [_], _, _, he => by cases he
  | k :: v :: rest, h, e, he => by
    rcases List.mem_cons.1 he with rfl | he
    · exact ⟨h k (.head _), h v (.tail _ (.head _))⟩
    · exact inert_pairUp (fun x hx => h x (.tail _ (.tail _ hx))) e he

end Value

/-! ## Operators -/

namespace Operator

variable {allowed : FunctionId → Bool} {op : BinaryOp} {l r v : Value}

theorem intResult_inert {symbol : String} {n : Int} (h : intResult symbol n = .ok v) :
    v.inert allowed = true := by
  unfold intResult at h
  split at h
  · cases h; rfl
  · cases h

theorem byteResult_inert {symbol : String} {n : Int} (h : byteResult symbol n = .ok v) :
    v.inert allowed = true := by
  unfold byteResult at h
  split at h
  · cases h; rfl
  · cases h

theorem arithmetic_inert {whole : Int → Int → Int} {real : Float → Float → Float}
    (h : arithmetic op whole real l r = .ok v) : v.inert allowed = true := by
  unfold arithmetic at h
  split at h
  · exact intResult_inert h
  · exact byteResult_inert h
  · cases h; rfl
  · cases h

theorem division_inert {whole : Int → Int → Int} {real : Float → Float → Float}
    (h : division op whole real l r = .ok v) : v.inert allowed = true := by
  rw [division_eq] at h
  split at h
  · split at h
    · cases h
    · split at h
      · cases h
      · exact intResult_inert h
  · split at h
    · cases h
    · exact byteResult_inert h
  · cases h; rfl
  · cases h

theorem shift_inert {int : Int64 → Int64 → Int64} {byte : UInt8 → UInt8 → UInt8}
    (h : shift op int byte l r = .ok v) : v.inert allowed = true := by
  rw [shift_eq] at h
  split at h
  · split at h
    · cases h; rfl
    · cases h
  · split at h
    · cases h; rfl
    · cases h
  · cases h

theorem comparison_inert {int : Int → Int → Bool} {real : Float → Float → Bool}
    (h : comparison op int real l r = .ok v) : v.inert allowed = true := by
  unfold comparison at h
  split at h <;> cases h <;> rfl

theorem connective_inert {holds : Bool → Bool → Bool} (h : connective op holds l r = .ok v) :
    v.inert allowed = true := by
  unfold connective at h
  split at h <;> cases h
  rfl

theorem algebra_inert {int : Int64 → Int64 → Int64} {byte : UInt8 → UInt8 → UInt8}
    {set : Items → Items → Items} {dict : Entries → Entries → Entries}
    (hs : ∀ a b x, x ∈ set a b → x ∈ a ∨ x ∈ b) (hd : ∀ a b x, x ∈ dict a b → x ∈ a ∨ x ∈ b)
    (hl : l.inert allowed = true) (hr : r.inert allowed = true)
    (h : algebra op int byte set dict l r = .ok v) : v.inert allowed = true := by
  unfold algebra at h
  split at h
  · cases h; rfl
  · cases h; rfl
  · rename_i a b
    cases h
    rw [Value.inert_set] at *
    intro x hx
    rcases hs a b x hx with hx | hx
    · exact hl x hx
    · exact hr x hx
  · rename_i a b
    cases h
    rw [Value.inert_dict] at *
    intro x hx
    rcases hd a b x hx with hx | hx
    · exact hl x hx
    · exact hr x hx
  · cases h

theorem join_inert (hl : l.inert allowed = true) (hr : r.inert allowed = true)
    (h : join l r = .ok v) : v.inert allowed = true := by
  unfold join at h
  split at h
  · rename_i a b
    cases h
    rw [Value.inert_seq] at *
    rw [Seq.toList_concat]
    intro x hx
    rcases List.mem_append.1 hx with hx | hx
    · exact hl x hx
    · exact hr x hx
  · cases h

theorem pushFront_inert (hl : l.inert allowed = true) (hr : r.inert allowed = true)
    (h : pushFront l r = .ok v) : v.inert allowed = true := by
  unfold pushFront at h
  split at h
  · cases h
    rw [Value.inert_seq] at *
    rw [Seq.toList_pushFront]
    intro x hx
    rcases List.mem_cons.1 hx with rfl | hx
    · exact hl
    · exact hr x hx
  · cases h

theorem pushBack_inert (hl : l.inert allowed = true) (hr : r.inert allowed = true)
    (h : pushBack l r = .ok v) : v.inert allowed = true := by
  unfold pushBack at h
  split at h
  · cases h
    rw [Value.inert_seq] at *
    rw [Seq.toList_pushBack]
    intro x hx
    rcases List.mem_append.1 hx with hx | hx
    · exact hl x hx
    · exact List.mem_singleton.1 hx ▸ hr
  · cases h

theorem member_inert (h : member l r = .ok v) : v.inert allowed = true := by
  unfold member at h
  split at h <;> cases h <;> rfl

theorem mem_inter_items {a b : Items} {x : Value} (h : x ∈ a.inter b) : x ∈ a :=
  (List.mem_filter.1 (Items.mem_ofList h)).1

theorem mem_inter_entries {a b : Entries} {x : Value × Value} (h : x ∈ a.inter b) : x ∈ a :=
  (List.mem_filter.1 (Entries.mem_ofList h)).1

theorem mem_symmDiff_items {a b : Items} {x : Value} (h : x ∈ a.symmDiff b) : x ∈ a ∨ x ∈ b := by
  rcases List.mem_append.1 (Items.mem_ofList h) with h | h
  · exact .inl (List.mem_filter.1 h).1
  · exact .inr (List.mem_filter.1 h).1

theorem mem_symmDiff_entries {a b : Entries} {x : Value × Value} (h : x ∈ a.symmDiff b) :
    x ∈ a ∨ x ∈ b := by
  rcases List.mem_append.1 (Entries.mem_ofList h) with h | h
  · exact .inl (List.mem_filter.1 h).1
  · exact .inr (List.mem_filter.1 h).1

theorem mem_union_items {a b : Items} {x : Value} (h : x ∈ a.union b) : x ∈ a ∨ x ∈ b := by
  rw [Items.union, Items.insert_eq_put] at h
  exact Keyed.mem_foldl_put h

theorem mem_union_entries {x : Value × Value} :
    ∀ {b a : Entries}, x ∈ a.union b → x ∈ a ∨ x ∈ b
  | [], _, h => .inl h
  | e :: rest, a, h => by
    rcases @mem_union_entries x rest (a.insertNew e) h with h | h
    · rw [Entries.insertNew] at h
      split at h
      · exact .inl h
      · rw [Entries.insert_eq_put] at h
        exact (Keyed.mem_put h).imp_right fun hx => List.mem_cons.2 (.inl hx)
    · exact .inr (.tail _ h)

end Operator

open Operator in
/-- A binary operator on inert values gives an inert value. -/
theorem BinaryOp.compute_inert {allowed : FunctionId → Bool} {op : BinaryOp} {l r v : Value}
    (h : op.compute l r = .ok v) (hl : l.inert allowed = true) (hr : r.inert allowed = true) :
    v.inert allowed = true := by
  cases op with
  | add | sub | mul => exact arithmetic_inert h
  | div | rem => exact division_inert h
  | eq | ne => cases h; rfl
  | lt | le | gt | ge =>
    simp only [BinaryOp.compute] at h
    exact comparison_inert h
  | and | or => exact connective_inert h
  | bitAnd =>
    exact algebra_inert (fun _ _ _ hx => .inl (mem_inter_items hx))
      (fun _ _ _ hx => .inl (mem_inter_entries hx)) hl hr h
  | bitOr =>
    exact algebra_inert (fun _ _ _ hx => mem_union_items hx)
      (fun _ _ _ hx => mem_union_entries hx) hl hr h
  | bitXor =>
    exact algebra_inert (fun _ _ _ hx => mem_symmDiff_items hx)
      (fun _ _ _ hx => mem_symmDiff_entries hx) hl hr h
  | shiftLeft | shiftRight => exact shift_inert h
  | join => exact join_inert hl hr h
  | pushFront => exact pushFront_inert hl hr h
  | pushBack => exact pushBack_inert hl hr h
  | mem => exact member_inert h

/-- A unary operator gives an inert value. -/
theorem UnaryOp.compute_inert {allowed : FunctionId → Bool} {op : UnaryOp} {u v : Value}
    (h : op.compute u = .ok v) : v.inert allowed = true := by
  unfold UnaryOp.compute at h
  split at h
  · exact Operator.intResult_inert h
  all_goals cases h
  all_goals rfl

/-! ## Text

The text of an inert value mentions no promise, so it depends on the labels of the allowed functions
alone. -/

namespace Value

variable {allowed : FunctionId → Bool} {labels labels' : Labels} {style : Style}

mutual

theorem render_congr (h : ∀ id, allowed id = true → labels.function id = labels'.function id) :
    ∀ v : Value, v.inert allowed = true → v.render labels style = v.render labels' style
  | .seq s, hv => by
    rw [inert] at hv
    rw [render, render, renderSeq_congr h s hv]
  | .tuple items, hv => by
    rw [inert] at hv
    rw [render, render, renderItems_congr h items hv]
  | .set items, hv => by
    rw [inert] at hv
    rw [render, render, renderItems_congr h items hv]
  | .dict entries, hv => by
    rw [inert] at hv
    rw [render, render, renderEntries_congr h entries hv]
  | .function id, hv => h id hv
  | .module _, hv => by simp [inert] at hv
  | .promise _, hv => by simp [inert] at hv
  | .unit, _ => rfl
  | .bool _, _ => rfl
  | .byte _, _ => rfl
  | .int _, _ => rfl
  | .float _, _ => rfl
  | .char _, _ => rfl
  | .symbol _, _ => rfl
termination_by structural v => v

theorem renderSeq_congr (h : ∀ id, allowed id = true → labels.function id = labels'.function id) :
    ∀ s : Seq Value, inertSeq allowed s = true → renderSeq labels style s = renderSeq labels' style s
  | ⟨front, back⟩, hv => by
    rw [inertSeq, Bool.and_eq_true] at hv
    rw [renderSeq, renderSeq, renderItems_congr h front hv.1, renderItems_congr h back hv.2]
termination_by structural v => v

theorem renderItems_congr (h : ∀ id, allowed id = true → labels.function id = labels'.function id) :
    ∀ items : List Value, inertItems allowed items = true →
      renderItems labels style items = renderItems labels' style items
  | [], _ => rfl
  | v :: rest, hv => by
    rw [inertItems, Bool.and_eq_true] at hv
    rw [renderItems, renderItems, render_congr h v hv.1, renderItems_congr h rest hv.2]
termination_by structural v => v

theorem renderEntries_congr (h : ∀ id, allowed id = true → labels.function id = labels'.function id) :
    ∀ es : List (Value × Value), inertEntries allowed es = true →
      renderEntries labels style es = renderEntries labels' style es
  | [], _ => rfl
  | e :: rest, hv => by
    rw [inertEntries, Bool.and_eq_true] at hv
    rw [renderEntries, renderEntries, renderEntry_congr h e hv.1, renderEntries_congr h rest hv.2]
termination_by structural v => v

theorem renderEntry_congr (h : ∀ id, allowed id = true → labels.function id = labels'.function id) :
    ∀ e : Value × Value, inertEntry allowed e = true →
      renderEntry labels style e = renderEntry labels' style e
  | (k, v), hv => by
    rw [inertEntry, Bool.and_eq_true] at hv
    rw [renderEntry, renderEntry, render_congr h k hv.1, render_congr h v hv.2]
termination_by structural v => v

end

end Value

end Deferral
