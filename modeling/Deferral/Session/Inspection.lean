import Deferral.Snapshot
import Deferral.Value.Digest

/-!
# Looking at values

What a host can find out about a value, and how it compares two of them.
-/

set_option autoImplicit false

namespace Deferral

/-- Everything a host can find out about a value. The two texts are missing when they depend on an
order that is not fixed, and the quoted one also when it has no end. -/
structure Inspection where
  value : Snapshot
  typeName : String
  plain : Option String
  quoted : Option String
  size : Option Nat
  isUnit : Bool
  isPromise : Bool
  isText : Bool
  isCallable : Bool
  bool : Option Bool
  int : Option Int64
  text : Option String
  seqLength : Option Nat
  tuple : Option (List Snapshot)
  /-- The elements at the places asked for. -/
  elements : List (Except Panic (Option Snapshot))
  /-- The parameters of a function. -/
  params : Option (List String)
  /-- The names of the bindings a function has captured, oldest first. -/
  captures : Option (List String)

/-- Inspects a value, with its elements at some places. -/
def Directory.inspect (d : Directory) (v : Value) (places : List UInt64) : Inspection :=
  let hidden := d.unordered v
  let function : Option Function :=
    match v with
    | .function id => d.function? id
    | _ => none
  { value := d.snapshot v
    typeName := v.typeName
    plain := if hidden then none else some (v.plain d.labels)
    quoted := if hidden then none else d.quoted? v
    size := v.size?
    isUnit := match v with
      | .unit => true
      | _ => false
    isPromise := v.isPromise
    isText := v.text?.isSome
    isCallable := match v with
      | .function _ => true
      | _ => false
    bool := v.bool?
    int := v.int?
    text := v.text?
    seqLength := v.seq?.map Seq.length
    tuple := v.tuple?.map fun items => items.map d.snapshot
    elements := places.map fun i => (v.element .wrapping i).map (Option.map d.snapshot)
    params := function.map Function.params
    captures := function.map fun f => f.captures.reverse.map (·.name) }

/-- How two values compare: whether they are equal, the other way round too, and whether equal ones
have equal digests. -/
structure Comparison where
  equal : Bool
  flipped : Bool
  digestsAgree : Bool

def Comparison.of (a b : Value) : Comparison :=
  let equal := a == b
  ⟨equal, b == a, !equal || a.digest == b.digest⟩

end Deferral
