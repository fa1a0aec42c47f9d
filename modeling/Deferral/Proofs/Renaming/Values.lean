import Mathlib.Data.List.Basic
import Deferral.Operator.Compute
import Deferral.Promise.Store

/-!
# Other identities for the same things

Functions, promises and gathers are numbered in the order in which they are made, and nothing but the
number tells two of them apart. A `Renaming` gives them other numbers, different ones to different
things. Renaming a value changes the identities inside it and nothing else, so everything that programs
compute from values is the same up to the renaming: equality (`Value.eqv_rename`), sets and
dictionaries, and the operators (`BinaryOp.compute_rename`, `UnaryOp.compute_rename`).
-/

set_option autoImplicit false

namespace Deferral

/-- Other identities for functions, promises and gathers. -/
structure Renaming where
  promise : PromiseId → PromiseId
  function : FunctionId → FunctionId
  gather : GatherId → GatherId
  promise_injective : Function.Injective promise
  function_injective : Function.Injective function
  gather_injective : Function.Injective gather

namespace Renaming

variable (r : Renaming)

@[simp] theorem promise_beq (p q : PromiseId) : (r.promise p == r.promise q) = (p == q) := by
  simp [Bool.beq_eq_decide_eq, r.promise_injective.eq_iff]

@[simp] theorem function_beq (f g : FunctionId) : (r.function f == r.function g) = (f == g) := by
  simp [Bool.beq_eq_decide_eq, r.function_injective.eq_iff]

@[simp] theorem promise_inj {p q : PromiseId} : r.promise p = r.promise q ↔ p = q :=
  r.promise_injective.eq_iff

end Renaming

/-- The module with its functions renamed. -/
def Module.rename (r : Renaming) (m : Module) : Module :=
  { m with functions := m.functions.map fun f => (f.1, r.function f.2) }

@[simp] theorem Module.name_rename (r : Renaming) (m : Module) : (m.rename r).name = m.name := rfl

theorem Module.rename_injective (r : Renaming) : Function.Injective (Module.rename r) := by
  have hentry : Function.Injective fun f : String × FunctionId => (f.1, r.function f.2) :=
    fun f g hfg => Prod.ext (Prod.mk.inj hfg).1 (r.function_injective (Prod.mk.inj hfg).2)
  rintro ⟨name, exports, functions⟩ ⟨name', exports', functions'⟩ h
  simp only [rename, Module.mk.injEq] at h ⊢
  exact ⟨h.1, h.2.1, List.map_injective_iff.2 hentry h.2.2⟩

/-- The sequence with every element replaced. -/
def Seq.map {α β : Type} (f : α → β) (s : Seq α) : Seq β := ⟨s.front.map f, s.back.map f⟩

namespace Seq

variable {α β : Type} (f : α → β)

@[simp] theorem toList_map (s : Seq α) : (s.map f).toList = s.toList.map f := by
  simp [map, toList]

@[simp] theorem length_map (s : Seq α) : (s.map f).length = s.length := by
  simp [map, length]

@[simp] theorem isEmpty_map (s : Seq α) : (s.map f).isEmpty = s.isEmpty := by
  simp [map, isEmpty]

theorem concat_map (s t : Seq α) : (s.map f).concat (t.map f) = (s.concat t).map f := by
  unfold concat
  rw [toList_map]
  induction t.toList generalizing s with
  | nil => rfl
  | cons a rest ih => exact ih (s.pushBack a)

end Seq

namespace Value

/-! ## Values -/

mutual

/-- The value with the identities inside it renamed. -/
def rename (r : Renaming) : Value → Value
  | .unit => .unit
  | .bool b => .bool b
  | .byte b => .byte b
  | .int n => .int n
  | .float x => .float x
  | .char c => .char c
  | .symbol name => .symbol name
  | .seq s => .seq (renameSeq r s)
  | .tuple items => .tuple (renameItems r items)
  | .set items => .set (renameItems r items)
  | .dict entries => .dict (renameEntries r entries)
  | .function id => .function (r.function id)
  | .module m => .module (m.rename r)
  | .promise id => .promise (r.promise id)
termination_by structural v => v

def renameSeq (r : Renaming) : Seq Value → Seq Value
  | ⟨front, back⟩ => ⟨renameItems r front, renameItems r back⟩
termination_by structural s => s

def renameItems (r : Renaming) : List Value → List Value
  | [] => []
  | v :: rest => rename r v :: renameItems r rest
termination_by structural vs => vs

def renameEntries (r : Renaming) : List (Value × Value) → List (Value × Value)
  | [] => []
  | e :: rest => renameEntry r e :: renameEntries r rest
termination_by structural es => es

def renameEntry (r : Renaming) : Value × Value → Value × Value
  | (k, v) => (rename r k, rename r v)
termination_by structural e => e

end

variable (r : Renaming)

theorem renameItems_eq (items : List Value) : renameItems r items = items.map (rename r) := by
  induction items with
  | nil => rfl
  | cons v rest ih => rw [renameItems, ih, List.map_cons]

theorem renameEntries_eq (entries : List (Value × Value)) :
    renameEntries r entries = entries.map (Prod.map (rename r) (rename r)) := by
  induction entries with
  | nil => rfl
  | cons e rest ih =>
    obtain ⟨k, v⟩ := e
    rw [renameEntries, ih, List.map_cons]
    rfl

theorem renameSeq_eq (s : Seq Value) : renameSeq r s = s.map (rename r) := by
  obtain ⟨front, back⟩ := s
  simp only [renameSeq, renameItems_eq, Seq.map]

@[simp] theorem rename_seq (s : Seq Value) : (seq s).rename r = .seq (s.map (rename r)) := by
  rw [rename, renameSeq_eq]

@[simp] theorem rename_tuple (items : List Value) :
    (tuple items).rename r = .tuple (items.map (rename r)) := by
  rw [rename, renameItems_eq]

@[simp] theorem rename_set (items : List Value) :
    (set items).rename r = .set (items.map (rename r)) := by
  rw [rename, renameItems_eq]

@[simp] theorem rename_dict (entries : List (Value × Value)) :
    (dict entries).rename r = .dict (entries.map (Prod.map (rename r) (rename r))) := by
  rw [rename, renameEntries_eq]

@[simp] theorem rename_seqOf (items : List Value) :
    (seqOf items).rename r = .seqOf (items.map (rename r)) := by
  rw [seqOf, rename_seq]
  rfl

@[simp] theorem rename_ofText (text : String) : (ofText text).rename r = .ofText text := by
  rw [ofText, rename_seqOf, List.map_map]
  rfl

/-! ### What can be seen of a value -/

@[simp] theorem typeName_rename (v : Value) : (v.rename r).typeName = v.typeName := by
  cases v <;> rfl

@[simp] theorem isPromise_rename (v : Value) : (v.rename r).isPromise = v.isPromise := by
  cases v <;> rfl

@[simp] theorem char?_rename (v : Value) : (v.rename r).char? = v.char? := by
  cases v <;> rfl

@[simp] theorem any_isPromise_rename (vs : List Value) :
    (vs.map (rename r)).any isPromise = vs.any isPromise := by
  simp [List.any_map, Function.comp_def]

end Value

@[simp] theorem Seq.text?_rename (r : Renaming) (s : Seq Value) :
    (s.map (Value.rename r)).text? = s.text? := by
  have h : Value.char? ∘ Value.rename r = Value.char? := funext fun v => Value.char?_rename r v
  simp only [Seq.text?, Seq.toList_map, List.mapM_map, h]

namespace Value

variable (r : Renaming)

@[simp] theorem text?_rename (v : Value) : (v.rename r).text? = v.text? := by
  cases v with
  | seq s => rw [rename_seq, text?, text?, Seq.text?_rename]
  | _ => rfl

@[simp] theorem size?_rename (v : Value) : (v.rename r).size? = v.size? := by
  cases v <;> simp [rename, size?, renameItems_eq, renameEntries_eq, renameSeq_eq]

@[simp] theorem elements_rename (v : Value) :
    (v.rename r).elements = v.elements.map (rename r) := by
  cases v with
  | tuple items => rw [rename_tuple]; rfl
  | _ => rfl

/-! ### Equality -/

mutual

/-- Renaming makes no difference between equal values, and none equal. -/
theorem eqv_rename : ∀ v w : Value, eqv (v.rename r) (w.rename r) = eqv v w
  | .seq s, w => by
    cases w with
    | seq t =>
      rw [rename_seq r t, rename, eqv, eqv, Seq.toList_map]
      exact eqvSeq_rename s t.toList
    | _ => rfl
  | .tuple items, w => by
    cases w with
    | tuple others =>
      rw [rename_tuple r others, rename, eqv, eqv]
      exact eqvItems_rename items others
    | _ => rfl
  | .set items, w => by
    cases w with
    | set others =>
      rw [rename_set r others, rename, eqv, eqv, allMembers_rename items others, renameItems_eq,
        List.length_map, List.length_map]
    | _ => rfl
  | .dict entries, w => by
    cases w with
    | dict others =>
      rw [rename_dict r others, rename, eqv, eqv, allEntries_rename entries others, renameEntries_eq,
        List.length_map, List.length_map]
    | _ => rfl
  | .function id, w => by
    cases w with
    | function id' => exact r.function_beq id id'
    | _ => rfl
  | .promise id, w => by
    cases w with
    | promise id' => exact r.promise_beq id id'
    | _ => rfl
  | .unit, w => by cases w <;> rfl
  | .bool _, w => by cases w <;> rfl
  | .byte _, w => by cases w <;> rfl
  | .int _, w => by cases w <;> rfl
  | .float _, w => by cases w <;> rfl
  | .char _, w => by cases w <;> rfl
  | .symbol _, w => by cases w <;> rfl
  | .module _, w => by cases w <;> rfl
termination_by structural v => v

theorem eqvSeq_rename : ∀ (s : Seq Value) (items : List Value),
    eqvSeq (renameSeq r s) (items.map (rename r)) = eqvSeq s items
  | ⟨front, back⟩, items => by
    have hlength : (renameItems r front).length = front.length := by
      rw [renameItems_eq, List.length_map]
    rw [renameSeq, eqvSeq, eqvSeq, hlength, ← List.map_take, ← List.map_drop, ← List.map_reverse,
      eqvItems_rename front, eqvItems_rename back]
termination_by structural s => s

theorem eqvItems_rename : ∀ as bs : List Value,
    eqvItems (renameItems r as) (bs.map (rename r)) = eqvItems as bs
  | [], [] => rfl
  | [], _ :: _ => rfl
  | _ :: _, [] => rfl
  | a :: as, b :: bs => by
    rw [renameItems, List.map_cons, eqvItems, eqvItems, eqv_rename a, eqvItems_rename as]
termination_by structural as => as

theorem allMembers_rename : ∀ as items : List Value,
    allMembers (renameItems r as) (items.map (rename r)) = allMembers as items
  | [], _ => rfl
  | a :: as, items => by
    rw [renameItems, allMembers, allMembers, allMembers_rename as, List.any_map]
    simp only [Function.comp_def, eqv_rename a]
termination_by structural as => as

theorem allEntries_rename : ∀ as entries : List (Value × Value),
    allEntries (renameEntries r as) (entries.map (Prod.map (rename r) (rename r))) =
      allEntries as entries
  | [], _ => rfl
  | a :: as, entries => by
    rw [renameEntries, allEntries, allEntries, allEntries_rename as, List.any_map]
    simp only [Function.comp_def, eqvEntry_rename a]
termination_by structural as => as

theorem eqvEntry_rename : ∀ e f : Value × Value,
    eqvEntry (renameEntry r e) (Prod.map (rename r) (rename r) f) = eqvEntry e f
  | (k, v), f => by
    rw [renameEntry, eqvEntry, eqvEntry, Prod.map_fst, Prod.map_snd, eqv_rename k, eqv_rename v]
termination_by structural e => e

end

@[simp] theorem beq_rename (v w : Value) : (v.rename r == w.rename r) = (v == w) := eqv_rename r v w

end Value

/-! ## Sets and dictionaries -/

section

variable (r : Renaming)

namespace Items

@[simp] theorem contains_rename (items : Items) (v : Value) :
    Items.contains (items.map (Value.rename r)) (v.rename r) = items.contains v := by
  simp only [contains, List.any_map, Function.comp_def, Value.beq_rename]

theorem insert_rename (items : Items) (v : Value) :
    Items.insert (items.map (Value.rename r)) (v.rename r) =
      (items.insert v).map (Value.rename r) := by
  induction items with
  | nil => rfl
  | cons x rest ih =>
    simp only [List.map_cons, insert, Value.beq_rename]
    split
    · rfl
    · rw [ih, List.map_cons]

theorem foldl_insert_rename (values : List Value) (items : Items) :
    (values.map (Value.rename r)).foldl insert (items.map (Value.rename r)) =
      (values.foldl insert items).map (Value.rename r) := by
  induction values generalizing items with
  | nil => rfl
  | cons v rest ih => rw [List.map_cons, List.foldl_cons, insert_rename, ih, List.foldl_cons]

theorem ofList_rename (values : List Value) :
    ofList (values.map (Value.rename r)) = (ofList values).map (Value.rename r) :=
  foldl_insert_rename r values []

theorem union_rename (a b : Items) :
    Items.union (a.map (Value.rename r)) (b.map (Value.rename r)) =
      (a.union b).map (Value.rename r) :=
  foldl_insert_rename r b a

theorem inter_rename (a b : Items) :
    Items.inter (a.map (Value.rename r)) (b.map (Value.rename r)) =
      (a.inter b).map (Value.rename r) := by
  simp only [inter, List.filter_map, Function.comp_def, contains_rename, ofList_rename]

theorem symmDiff_rename (a b : Items) :
    Items.symmDiff (a.map (Value.rename r)) (b.map (Value.rename r)) =
      (a.symmDiff b).map (Value.rename r) := by
  simp only [symmDiff, List.filter_map, Function.comp_def, contains_rename, ← List.map_append,
    ofList_rename]

end Items

namespace Entries

/-- The entries with the identities inside them renamed. -/
abbrev rename (entries : Entries) : Entries := entries.map (Prod.map (Value.rename r) (Value.rename r))

@[simp] theorem contains_rename (entries : Entries) (key : Value) :
    (entries.rename r).contains (key.rename r) = entries.contains key := by
  simp only [contains, List.any_map, Function.comp_def, Prod.map_fst, Value.beq_rename]

theorem get?_rename (entries : Entries) (key : Value) :
    (entries.rename r).get? (key.rename r) = (entries.get? key).map (Value.rename r) := by
  simp only [get?, List.find?_map, Function.comp_def, Prod.map_fst, Value.beq_rename, Option.map_map,
    Prod.map_snd]

theorem insert_rename (entries : Entries) (entry : Value × Value) :
    (entries.rename r).insert (Prod.map (Value.rename r) (Value.rename r) entry) =
      (entries.insert entry).rename r := by
  induction entries with
  | nil => rfl
  | cons e rest ih =>
    simp only [rename, List.map_cons, insert, Prod.map_fst, Value.beq_rename]
    split
    · rfl
    · exact congrArg (_ :: ·) ih

theorem ofList_rename (entries : List (Value × Value)) :
    ofList (Entries.rename r entries) = (ofList entries).rename r := by
  have h : ∀ before : Entries, (Entries.rename r entries).foldl insert (before.rename r) =
      (entries.foldl insert before).rename r := by
    induction entries with
    | nil => exact fun _ => rfl
    | cons e rest ih =>
      intro before
      have hfirst := insert_rename r before e
      simp only [rename, List.map_cons, List.foldl_cons] at ih hfirst ⊢
      rw [hfirst, ih]
  exact h []

theorem insertNew_rename (entries : Entries) (entry : Value × Value) :
    (entries.rename r).insertNew (Prod.map (Value.rename r) (Value.rename r) entry) =
      (entries.insertNew entry).rename r := by
  rw [insertNew, insertNew, Prod.map_fst, contains_rename, insert_rename]
  split <;> rfl

theorem union_rename (a b : Entries) : (a.rename r).union (b.rename r) = (a.union b).rename r := by
  unfold union
  induction b generalizing a with
  | nil => rfl
  | cons e rest ih =>
    have hfirst := insertNew_rename r a e
    simp only [rename, List.map_cons, List.foldl_cons] at ih hfirst ⊢
    rw [hfirst, ih]

theorem inter_rename (a b : Entries) : (a.rename r).inter (b.rename r) = (a.inter b).rename r := by
  simp only [inter, List.filter_map, Function.comp_def, Prod.map_fst, contains_rename, ofList_rename]

theorem symmDiff_rename (a b : Entries) :
    (a.rename r).symmDiff (b.rename r) = (a.symmDiff b).rename r := by
  simp only [symmDiff, List.filter_map, Function.comp_def, Prod.map_fst, contains_rename,
    ← List.map_append, ofList_rename]

end Entries

@[simp] theorem Value.rename_setOf (values : List Value) :
    (Value.setOf values).rename r = .setOf (values.map (Value.rename r)) := by
  rw [Value.setOf, Value.rename_set, Value.setOf, Items.ofList_rename]

@[simp] theorem Value.rename_dictOf (entries : List (Value × Value)) :
    (Value.dictOf entries).rename r = .dictOf (Entries.rename r entries) := by
  rw [Value.dictOf, Value.rename_dict, Value.dictOf, Entries.ofList_rename]

theorem Value.pairUp_rename (values : List Value) :
    pairUp (values.map (Value.rename r)) = Entries.rename r (pairUp values) := by
  fun_induction pairUp values with
  | case1 key value rest ih => simp only [List.map_cons, pairUp, ih, Prod.map]
  | case2 values h =>
    match values, h with
    | [], _ => rfl
    | [_], _ => rfl
    | key :: value :: rest, h => exact absurd rfl (h key value rest)

end

/-! ## Errors and results -/

/-- The error with the identities in its operands renamed. -/
def Error.rename (r : Renaming) : Error → Error
  | .typeError operation values => .typeError operation (values.map (Value.rename r))
  | .undefined name kind => .undefined name kind
  | .noMatch value => .noMatch value
  | .arity function expected got => .arity function expected got
  | .raised tag message stack => .raised tag message stack
  | .resolution fault => .resolution fault
  | .divisionByZero => .divisionByZero
  | .overflow operation => .overflow operation
  | .notCallable value => .notCallable value
  | .stackOverflow depth max => .stackOverflow depth max
  | .taskFailed message => .taskFailed message
  | .interrupted => .interrupted
  | .traced cause stack => .traced (cause.rename r) stack

/-- What has come of something, with the identities renamed; `f` renames those in a result. -/
def renameResult (r : Renaming) {α β : Type} (f : α → β) : Except Error α → Except Error β
  | .ok a => .ok (f a)
  | .error e => .error (e.rename r)

abbrev Outcome.rename (r : Renaming) : Outcome → Outcome := renameResult r (Value.rename r)

/-- Goes on with a result. -/
theorem renameResult_bind {r : Renaming} {α β γ δ : Type} {f : α → β} {g : γ → δ}
    {x : Except Error α} {k : α → Except Error γ} {k' : β → Except Error δ}
    (hk : ∀ a, k' (f a) = renameResult r g (k a)) :
    (renameResult r f x >>= k') = renameResult r g (x >>= k) := by
  cases x with
  | ok a => exact hk a
  | error e => rfl

section

variable (r : Renaming)

namespace Error

@[simp] theorem root_rename (e : Error) : (e.rename r).root = e.root.rename r := by
  induction e with
  | traced cause stack ih => exact ih
  | _ => rfl

@[simp] theorem tag_rename (e : Error) : (e.rename r).tag = e.tag := by
  induction e with
  | traced cause stack ih => exact ih
  | undefined name kind => cases kind <;> rfl
  | _ => rfl

@[simp] theorem stack?_rename (e : Error) : (e.rename r).stack? = e.stack? := by
  cases e <;> rfl

@[simp] theorem catchable_rename (e : Error) : (e.rename r).catchable = e.catchable := by
  rw [catchable, catchable, root_rename]
  cases e.root <;> rfl

theorem withStack_rename (stack : StackTrace) (e : Error) :
    (e.withStack stack).rename r = (e.rename r).withStack stack := by
  cases e <;> rfl

end Error

/-! ## Operators -/

namespace Operator

@[simp] theorem rename_intResult (symbol : String) (n : Int) :
    Outcome.rename r (intResult symbol n) = intResult symbol n := by
  unfold intResult
  split <;> rfl

@[simp] theorem rename_byteResult (symbol : String) (n : Int) :
    Outcome.rename r (byteResult symbol n) = byteResult symbol n := by
  unfold byteResult
  split <;> rfl

variable (op : BinaryOp) (a b : Value)

theorem arithmetic_rename (whole : Int → Int → Int) (real : Float → Float → Float) :
    arithmetic op whole real (a.rename r) (b.rename r) =
      Outcome.rename r (arithmetic op whole real a b) := by
  cases a with
  | int x =>
    cases b with
    | int y => exact (rename_intResult r ..).symm
    | _ => rfl
  | byte x =>
    cases b with
    | byte y => exact (rename_byteResult r ..).symm
    | _ => rfl
  | float x => cases b <;> rfl
  | _ => rfl

theorem division_rename (whole : Int → Int → Int) (real : Float → Float → Float) :
    division op whole real (a.rename r) (b.rename r) =
      Outcome.rename r (division op whole real a b) := by
  rw [division_eq, division_eq]
  cases a with
  | int x =>
    cases b with
    | int y =>
      simp only [Value.rename]
      split
      · rfl
      · split
        · rfl
        · exact (rename_intResult r ..).symm
    | _ => rfl
  | byte x =>
    cases b with
    | byte y =>
      simp only [Value.rename]
      split
      · rfl
      · exact (rename_byteResult r ..).symm
    | _ => rfl
  | float x => cases b <;> rfl
  | _ => rfl

theorem shift_rename (int : Int64 → Int64 → Int64) (byte : UInt8 → UInt8 → UInt8) :
    shift op int byte (a.rename r) (b.rename r) = Outcome.rename r (shift op int byte a b) := by
  rw [shift_eq, shift_eq]
  cases a with
  | int x =>
    cases b with
    | int y =>
      simp only [Value.rename]
      split <;> rfl
    | _ => rfl
  | byte x =>
    cases b with
    | byte y =>
      simp only [Value.rename]
      split <;> rfl
    | _ => rfl
  | _ => rfl

theorem comparison_rename (int : Int → Int → Bool) (real : Float → Float → Bool) :
    comparison op int real (a.rename r) (b.rename r) =
      Outcome.rename r (comparison op int real a b) := by
  cases a with
  | int x => cases b <;> rfl
  | float x => cases b <;> rfl
  | byte x => cases b <;> rfl
  | char x => cases b <;> rfl
  | _ => rfl

theorem connective_rename (holds : Bool → Bool → Bool) :
    connective op holds (a.rename r) (b.rename r) = Outcome.rename r (connective op holds a b) := by
  cases a with
  | bool x => cases b <;> rfl
  | _ => rfl

/-- An operation on bits, sets and dictionaries, if it is one on sets and dictionaries. -/
theorem algebra_rename {int : Int64 → Int64 → Int64} {byte : UInt8 → UInt8 → UInt8}
    {set : Items → Items → Items} {dict : Entries → Entries → Entries}
    (hset : ∀ a b : Items, set (a.map (Value.rename r)) (b.map (Value.rename r)) =
      (set a b).map (Value.rename r))
    (hdict : ∀ a b : Entries, dict (a.rename r) (b.rename r) = (dict a b).rename r) :
    algebra op int byte set dict (a.rename r) (b.rename r) =
      Outcome.rename r (algebra op int byte set dict a b) := by
  cases a with
  | int x => cases b <;> rfl
  | byte x => cases b <;> rfl
  | set x =>
    cases b with
    | set y => simp only [Value.rename_set, algebra, hset, renameResult]
    | _ => rfl
  | dict x =>
    cases b with
    | dict y => simp only [Value.rename_dict, algebra, hdict, renameResult]
    | _ => rfl
  | _ => rfl

theorem join_rename : join (a.rename r) (b.rename r) = Outcome.rename r (join a b) := by
  cases a with
  | seq x =>
    cases b with
    | seq y => simp only [Value.rename_seq, join, Seq.concat_map, renameResult]
    | _ => rfl
  | _ => rfl

theorem pushFront_rename :
    pushFront (a.rename r) (b.rename r) = Outcome.rename r (pushFront a b) := by
  cases b with
  | seq y =>
    simp only [Value.rename_seq, pushFront, renameResult]
    rfl
  | _ => rfl

theorem pushBack_rename :
    pushBack (a.rename r) (b.rename r) = Outcome.rename r (pushBack a b) := by
  cases a with
  | seq x =>
    simp only [Value.rename_seq, pushBack, renameResult]
    rfl
  | _ => rfl

theorem member_rename : member (a.rename r) (b.rename r) = Outcome.rename r (member a b) := by
  cases b with
  | set y =>
    simp only [Value.rename_set, member, Items.contains_rename]
    rfl
  | dict y =>
    simp only [Value.rename_dict, member, Entries.contains_rename]
    rfl
  | seq y =>
    have h : Seq.contains (y.map (Value.rename r)) (a.rename r) = y.contains a := by
      simp only [Seq.contains, Seq.toList_map, List.any_map, Function.comp_def, Value.beq_rename]
    simp only [Value.rename_seq, member, h]
    rfl
  | _ => rfl

end Operator

open Operator in
/-- An operator does the same with renamed operands. -/
theorem BinaryOp.compute_rename (op : BinaryOp) (a b : Value) :
    op.compute (a.rename r) (b.rename r) = Outcome.rename r (op.compute a b) := by
  cases op with
  | add | sub | mul => exact arithmetic_rename ..
  | div | rem => exact division_rename ..
  | eq | ne => simp only [BinaryOp.compute, Value.beq_rename, renameResult, Value.rename]
  | lt | le | gt | ge =>
    simp only [BinaryOp.compute]
    exact comparison_rename ..
  | and | or => exact connective_rename ..
  | bitAnd => exact algebra_rename _ _ _ _ (Items.inter_rename r) (Entries.inter_rename r)
  | bitOr => exact algebra_rename _ _ _ _ (Items.union_rename r) (Entries.union_rename r)
  | bitXor => exact algebra_rename _ _ _ _ (Items.symmDiff_rename r) (Entries.symmDiff_rename r)
  | shiftLeft | shiftRight => exact shift_rename ..
  | join => exact join_rename ..
  | pushFront => exact pushFront_rename ..
  | pushBack => exact pushBack_rename ..
  | mem => exact member_rename ..

theorem UnaryOp.compute_rename (op : UnaryOp) (v : Value) :
    op.compute (v.rename r) = Outcome.rename r (op.compute v) := by
  cases op with
  | neg =>
    cases v with
    | int n => exact (Operator.rename_intResult r ..).symm
    | _ => rfl
  | not => cases v <;> rfl
  | complement => cases v <;> rfl

end

end Deferral
