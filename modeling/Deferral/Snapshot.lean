import Deferral.Directory

/-!
# Snapshots

A snapshot is a value as it stands at one moment: every promise is replaced by its state, every
function and module by its description, and the elements of sets and dictionaries are in a canonical
order. Snapshots are what hosts are shown; they do not change when promises are settled later.
-/

set_option autoImplicit false

namespace Deferral

/-- Which error it is, without its details. -/
inductive ErrorKind where
  | typeError
  | undefined (kind : UndefinedKind)
  | noMatch
  | arity
  | raised
  | resolution
  | divisionByZero
  | overflow
  | notCallable
  | stackOverflow
  | taskFailed
  | interrupted
  deriving DecidableEq, Repr

/-- The kind of an error, looking through its trace. -/
def Error.kind : Error → ErrorKind
  | .typeError .. => .typeError
  | .undefined _ kind => .undefined kind
  | .noMatch _ => .noMatch
  | .arity .. => .arity
  | .raised .. => .raised
  | .resolution _ => .resolution
  | .divisionByZero => .divisionByZero
  | .overflow _ => .overflow
  | .notCallable _ => .notCallable
  | .stackOverflow .. => .stackOverflow
  | .taskFailed _ => .taskFailed
  | .interrupted => .interrupted
  | .traced cause _ => cause.kind

/-- An error as hosts are shown it; `α` is the type of the operands shown. -/
structure ErrorReport (α : Type) where
  kind : ErrorKind
  /-- The words of the error, unless they depend on an order that is not fixed or have no end. -/
  message : Option String
  tag : String
  text : Option String
  traced : Bool
  stack : Option StackTrace
  operands : List α

/-- A value as it stands at one moment. -/
inductive Snapshot where
  | unit
  | bool (b : Bool)
  | byte (b : UInt8)
  | int (n : Int64)
  | float (x : Float)
  | char (c : Char)
  | symbol (name : String)
  | seq (items : List Snapshot)
  | tuple (items : List Snapshot)
  | set (items : List Snapshot)
  | dict (entries : List (Snapshot × Snapshot))
  | function (name qualified : String) (arity : Nat) (native : Bool)
  | module (name : String) (exports functions : List String)
  | pending
  | fulfilled (value : Snapshot)
  | failed (report : ErrorReport Snapshot)
  deriving Inhabited

namespace Snapshot

def char? : Snapshot → Option Char
  | .char c => some c
  | _ => none

/-- The text of a non-empty sequence of characters. -/
def text? (items : List Snapshot) : Option String :=
  if items.isEmpty then none else (items.mapM char?).map String.ofList

/-! ## The canonical order -/

/-- The place of a variant in the canonical order. -/
def rank : Snapshot → Nat
  | .unit => 0
  | .bool _ => 1
  | .byte _ => 2
  | .int _ => 3
  | .float _ => 4
  | .char _ => 5
  | .symbol _ => 6
  | .seq _ => 7
  | .tuple _ => 8
  | .set _ => 9
  | .dict _ => 10
  | .function .. => 11
  | .module .. => 12
  | .pending => 13
  | .fulfilled _ => 13
  | .failed _ => 13

/-- Floats by value, with not-a-number last. -/
def compareFloat (a b : Float) : Ordering :=
  if a.isNaN then (if b.isNaN then .eq else .gt)
  else if b.isNaN then .lt
  else if a < b then .lt
  else if b < a then .gt
  else .eq

/-- Texts by code points. -/
def compareText (a b : String) : Ordering :=
  if a < b then .lt else if b < a then .gt else .eq

mutual

/-- The canonical order: by variant first, then by content. Promises are not told apart. -/
def compare : Snapshot → Snapshot → Ordering
  | .bool a, .bool b => Ord.compare a.toNat b.toNat
  | .byte a, .byte b => Ord.compare a.toNat b.toNat
  | .int a, .int b => Ord.compare a.toInt b.toInt
  | .float a, .float b => compareFloat a b
  | .char a, .char b => Ord.compare a.toNat b.toNat
  | .symbol a, .symbol b => compareText a b
  | .seq a, .seq b => compareItems a b
  | .tuple a, .tuple b => compareItems a b
  | .set a, .set b => compareItems a b
  | .dict a, .dict b => compareEntries a b
  | .function _ a m _, .function _ b n _ => (compareText a b).then (Ord.compare m n)
  | .module a _ _, .module b _ _ => compareText a b
  | a, b => Ord.compare a.rank b.rank
termination_by structural a => a

/-- Element by element; a list that ends first is smaller. -/
def compareItems : List Snapshot → List Snapshot → Ordering
  | [], [] => .eq
  | [], _ :: _ => .lt
  | _ :: _, [] => .gt
  | a :: as, b :: bs => (compare a b).then (compareItems as bs)
termination_by structural as => as

def compareEntries : List (Snapshot × Snapshot) → List (Snapshot × Snapshot) → Ordering
  | [], [] => .eq
  | [], _ :: _ => .lt
  | _ :: _, [] => .gt
  | a :: as, b :: bs => (compareEntry a b).then (compareEntries as bs)
termination_by structural as => as

/-- Entries by key, then by value. -/
def compareEntry : Snapshot × Snapshot → Snapshot × Snapshot → Ordering
  | (k, v), e => (compare k e.1).then (compare v e.2)
termination_by structural a => a

end

def sortItems (items : List Snapshot) : List Snapshot :=
  items.mergeSort fun a b => (compare a b).isLE

def sortEntries (entries : List (Snapshot × Snapshot)) : List (Snapshot × Snapshot) :=
  entries.mergeSort fun a b => (compareEntry a b).isLE

/-! ## Taking a snapshot -/

def ofFunction (id : FunctionId) : Option Function → Snapshot
  | some f => .function f.name f.qualifiedName f.arity f.isNative
  | none => .function "" "" id.index false

def ofModule (m : Module) : Snapshot :=
  .module m.name.text m.exports (m.functions.map (·.1))

mutual

/-- The snapshot of a value, where `promise` gives that of a promise. -/
def ofValue (function? : FunctionId → Option Function) (promise : PromiseId → Snapshot) :
    Value → Snapshot
  | .unit => .unit
  | .bool b => .bool b
  | .byte b => .byte b
  | .int n => .int n
  | .float x => .float x
  | .char c => .char c
  | .symbol name => .symbol name
  | .seq s => .seq (ofSeq function? promise s)
  | .tuple items => .tuple (ofItems function? promise items)
  | .set items => .set (sortItems (ofItems function? promise items))
  | .dict entries => .dict (sortEntries (ofEntries function? promise entries))
  | .function id => ofFunction id (function? id)
  | .module m => ofModule m
  | .promise p => promise p
termination_by structural v => v

def ofSeq (function? : FunctionId → Option Function) (promise : PromiseId → Snapshot) :
    Seq Value → List Snapshot
  | ⟨front, back⟩ => ofItems function? promise front ++ (ofItems function? promise back).reverse
termination_by structural s => s

def ofItems (function? : FunctionId → Option Function) (promise : PromiseId → Snapshot) :
    List Value → List Snapshot
  | [] => []
  | v :: rest => ofValue function? promise v :: ofItems function? promise rest
termination_by structural vs => vs

def ofEntries (function? : FunctionId → Option Function) (promise : PromiseId → Snapshot) :
    List (Value × Value) → List (Snapshot × Snapshot)
  | [] => []
  | e :: rest => ofEntry function? promise e :: ofEntries function? promise rest
termination_by structural es => es

def ofEntry (function? : FunctionId → Option Function) (promise : PromiseId → Snapshot) :
    Value × Value → Snapshot × Snapshot
  | (k, v) => (ofValue function? promise k, ofValue function? promise v)
termination_by structural e => e

end

end Snapshot

namespace Directory

/-- An error as hosts are shown it, where `shown` gives its operands. -/
def reportWith (d : Directory) (shown : Value → Snapshot) (e : Error) : ErrorReport Snapshot :=
  let hidden := e.operands.any d.unordered || !d.legible e.promises
  { kind := e.kind
    message := if hidden then none else some (e.message d.labels)
    tag := e.tag
    text := if hidden then none else some (e.text d.labels)
    traced := match e with
      | .traced .. => true
      | _ => false
    stack := e.stack?
    operands := e.operands.map shown }

/-- The state of a promise, looking through at most `n` promises. -/
def standing (d : Directory) : Nat → PromiseId → Snapshot
  | 0, _ => .pending
  | n + 1, p =>
    let shown := Snapshot.ofValue d.function? (standing d n)
    match d.outcome? p with
    | none => .pending
    | some (.ok v) => .fulfilled (shown v)
    | some (.error e) => .failed (d.reportWith shown e)

/-- The state of a promise. -/
def promise (d : Directory) (p : PromiseId) : Snapshot := d.standing (d.promises + 1) p

/-- The snapshot of a value. -/
def snapshot (d : Directory) (v : Value) : Snapshot := Snapshot.ofValue d.function? d.promise v

/-- An error as hosts are shown it. -/
def report (d : Directory) (e : Error) : ErrorReport Snapshot := d.reportWith d.snapshot e

end Directory

end Deferral
