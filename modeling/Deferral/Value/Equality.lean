import Deferral.Value.Basic

/-!
# Equality of values

Values of different variants are never equal. Sequences and tuples are compared element by element,
sets and dictionaries by content whatever the order, functions and promises by identity, modules by
name. Floats are compared by a key that makes all not-a-numbers one value and the two zeros another,
so that equality is reflexive and every value can be an element of a set.
-/

set_option autoImplicit false

namespace Deferral

/-- The bits a float is compared by: one pattern for every not-a-number, one for both zeros. -/
def floatKey (x : Float) : UInt64 :=
  if x.isNaN then 0x7ff8000000000000
  else if x == 0.0 then 0
  else x.toBits

namespace Value

mutual

/-- Equality of values. -/
def eqv : Value → Value → Bool
  | .unit, .unit => true
  | .bool a, .bool b => a == b
  | .byte a, .byte b => a == b
  | .int a, .int b => a == b
  | .float a, .float b => floatKey a == floatKey b
  | .char a, .char b => a == b
  | .symbol a, .symbol b => a == b
  | .seq a, .seq b => eqvSeq a b.toList
  | .tuple a, .tuple b => eqvItems a b
  | .set a, .set b => a.length == b.length && allMembers a b
  | .dict a, .dict b => a.length == b.length && allEntries a b
  | .function a, .function b => a == b
  | .module a, .module b => a.name == b.name
  | .promise a, .promise b => a == b
  | _, _ => false
termination_by structural a _ => a

/-- Whether a sequence has the given elements: its front is compared with the first of them, its back
with the others from the end. -/
def eqvSeq : Seq Value → List Value → Bool
  | ⟨front, back⟩, items =>
    eqvItems front (items.take front.length) && eqvItems back (items.drop front.length).reverse
termination_by structural a _ => a

/-- Equality element by element. -/
def eqvItems : List Value → List Value → Bool
  | [], [] => true
  | a :: as, b :: bs => eqv a b && eqvItems as bs
  | _, _ => false
termination_by structural a _ => a

/-- Whether every element of the first list has an equal one in the second. -/
def allMembers : List Value → List Value → Bool
  | [], _ => true
  | a :: as, items => items.any (fun b => eqv a b) && allMembers as items
termination_by structural a _ => a

/-- Whether every entry of the first list has an equal key with an equal value in the second. -/
def allEntries : List (Value × Value) → List (Value × Value) → Bool
  | [], _ => true
  | e :: rest, entries => entries.any (fun f => eqvEntry e f) && allEntries rest entries
termination_by structural a _ => a

/-- Equality of key and value. -/
def eqvEntry : Value × Value → Value × Value → Bool
  | (k, v), e => eqv k e.1 && eqv v e.2
termination_by structural a _ => a

end

instance : BEq Value := ⟨eqv⟩

end Value

/-- Equality of sequences: the same elements, whatever the split. -/
def Seq.eqv (a b : Seq Value) : Bool := Value.eqvSeq a b.toList

/-- Whether an element of the sequence equals the value. -/
def Seq.contains (s : Seq Value) (v : Value) : Bool := s.toList.any (· == v)

end Deferral
