import Deferral.Value.Equality

/-!
# What a value feeds to a hash function

Equal values feed the same words, so they have the same digest under any hash function. A word for the
variant comes first. The digests of the elements of a set, and of the entries of a dictionary, are
added up modulo `2 ^ 64`, so that the order in which they are stored does not show.
-/

set_option autoImplicit false

namespace Deferral.Value

/-- The words of a text, with its length in front. -/
def feedText (text : String) : List Nat := text.length :: text.toList.map Char.toNat

mutual

/-- The words of a value, where `digest` hashes the elements of sets and dictionaries. -/
def feed (digest : List Nat → UInt64) : Value → List Nat
  | .unit => [0]
  | .bool b => [1, b.toNat]
  | .byte b => [2, b.toNat]
  | .int n => [3, n.toUInt64.toNat]
  | .float x => [4, (floatKey x).toNat]
  | .char c => [5, c.toNat]
  | .symbol name => 6 :: feedText name
  | .seq s => 7 :: feedSeq digest s
  | .tuple items => 8 :: items.length :: feedItems digest items
  | .set items => [9, items.length, (sumItems digest items).toNat]
  | .dict entries => [10, entries.length, (sumEntries digest entries).toNat]
  | .function id => [11, id.index]
  | .module m => 12 :: m.name.parts.length :: m.name.parts.flatMap feedText
  | .promise id => [13, id.index]
termination_by structural v => v

/-- The words of a sequence: its length, then its elements in order. -/
def feedSeq (digest : List Nat → UInt64) : Seq Value → List Nat
  | ⟨front, back⟩ =>
    (front.length + back.length) :: (feedItems digest front ++ feedReversed digest back)
termination_by structural v => v

/-- The words of the elements, one after the other. -/
def feedItems (digest : List Nat → UInt64) : List Value → List Nat
  | [] => []
  | v :: rest => feed digest v ++ feedItems digest rest
termination_by structural v => v

/-- The words of the elements, last element first. -/
def feedReversed (digest : List Nat → UInt64) : List Value → List Nat
  | [] => []
  | v :: rest => feedReversed digest rest ++ feed digest v
termination_by structural v => v

/-- The sum of the digests of the elements. -/
def sumItems (digest : List Nat → UInt64) : List Value → UInt64
  | [] => 0
  | v :: rest => digest (feed digest v) + sumItems digest rest
termination_by structural v => v

/-- The sum of the digests of the entries. -/
def sumEntries (digest : List Nat → UInt64) : List (Value × Value) → UInt64
  | [] => 0
  | e :: rest => digest (feedEntry digest e) + sumEntries digest rest
termination_by structural v => v

/-- The words of an entry: its key, then its value. -/
def feedEntry (digest : List Nat → UInt64) : Value × Value → List Nat
  | (k, v) => feed digest k ++ feed digest v
termination_by structural v => v

end

/-- A simple multiplicative hash of words. -/
def mix (words : List Nat) : UInt64 :=
  words.foldl (fun h w => (h ^^^ UInt64.ofNat w) * 0x100000001b3) 0xcbf29ce484222325

/-- The digest of a value. -/
def digest (v : Value) : UInt64 := mix (feed mix v)

end Deferral.Value
