import Deferral.ModuleName
import Deferral.Seq

/-!
# Values

What programs compute with. Values are plain data: a function and a promise are held by identity, and
what the identity stands for is kept elsewhere. Nothing converts between variants by itself.

Sets and dictionaries are lists in the order of first insertion, without two equal elements or keys;
`Value.setOf` and `Value.dictOf` build them.
-/

set_option autoImplicit false

namespace Deferral

/-- The identity of a promise. -/
structure PromiseId where
  index : Nat
  deriving DecidableEq, Repr, Inhabited

/-- The identity of a function. -/
structure FunctionId where
  index : Nat
  deriving DecidableEq, Repr, Inhabited

/-- A module: its functions by name, and the names that are visible from outside. -/
structure Module where
  name : ModuleName
  exports : List String
  functions : List (String × FunctionId)
  deriving DecidableEq, Repr, Inhabited

/-- A value of a program. -/
inductive Value where
  | unit
  | bool (b : Bool)
  | byte (b : UInt8)
  | int (n : Int64)
  | float (x : Float)
  | char (c : Char)
  /-- A tag such as `:ok`, by its name without the colon. -/
  | symbol (name : String)
  /-- An ordered sequence; text is a sequence of characters. -/
  | seq (items : Seq Value)
  | tuple (items : List Value)
  | set (items : List Value)
  | dict (entries : List (Value × Value))
  | function (id : FunctionId)
  | module (m : Module)
  /-- A value that may not be there yet. -/
  | promise (id : PromiseId)
  deriving Inhabited

namespace Value

/-- The sequence of the given elements. -/
def seqOf (items : List Value) : Value := .seq (.ofList items)

/-- A text as a sequence of characters. -/
def ofText (text : String) : Value := seqOf (text.toList.map .char)

/-- The name of the variant. -/
def typeName : Value → String
  | .unit => "Unit"
  | .bool _ => "Bool"
  | .byte _ => "Byte"
  | .int _ => "Integer"
  | .float _ => "Float"
  | .char _ => "Char"
  | .symbol _ => "Symbol"
  | .seq _ => "Sequence"
  | .tuple _ => "Tuple"
  | .set _ => "Set"
  | .dict _ => "Dict"
  | .function _ => "Function"
  | .module _ => "Module"
  | .promise _ => "Promise"

def isPromise : Value → Bool
  | .promise _ => true
  | _ => false

def char? : Value → Option Char
  | .char c => some c
  | _ => none

end Value

/-- The text of a sequence of characters; the empty sequence is the empty text. -/
def Seq.text? (s : Seq Value) : Option String :=
  (s.toList.mapM Value.char?).map String.ofList

namespace Value

/-- The text a value is, if it is one. -/
def text? : Value → Option String
  | .seq s => s.text?
  | _ => none

def bool? : Value → Option Bool
  | .bool b => some b
  | _ => none

def int? : Value → Option Int64
  | .int n => some n
  | _ => none

def seq? : Value → Option (Seq Value)
  | .seq s => some s
  | _ => none

/-- The elements of a tuple. -/
def tuple? : Value → Option (List Value)
  | .tuple items => some items
  | _ => none

/-- The elements of a tuple, none for any other value. -/
def elements (v : Value) : List Value := v.tuple?.getD []

/-- The number of elements of a tuple, sequence, set or dictionary. -/
def size? : Value → Option Nat
  | .tuple items => some items.length
  | .seq s => some s.length
  | .set items => some items.length
  | .dict entries => some entries.length
  | _ => none

/-- The element of a tuple or sequence at an index. -/
def element (build : Build) : Value → UInt64 → Except Panic (Option Value)
  | .tuple items, i => .ok items[i.toNat]?
  | .seq s, i => s.get build i
  | _, _ => .ok none

end Value

end Deferral
