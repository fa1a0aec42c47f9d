import Deferral.Proofs.Value.Lawful
import Deferral.Session.SeqScript
import Deferral.Value.Text

/-!
# Sequences are lists

A sequence is read through its view `Seq.toList`: each observer of a sequence is the observer of lists
of that name on the view (`Seq.Shows`), and each way to make one is the one of lists
(`Seq.Construction.map_toList_build`). Where the view is split into front and back is seen by none of
them, by no comparison, by no hash function and in no text (`Seq.Indistinct`), and that is kept by
whatever is made from two sequences with one view.

Three operations have to cross the seam between the two parts: `get` past the front counts from the end
of the back, and dropping from an end whose part is used up turns the other part round. Counting from
the end asks for the word after an index, so the greatest word is a case of its own (`get_wrapping`,
`get_checked`): no sequence has an element there, but where overflow is checked the program gives up.
-/

set_option autoImplicit false

namespace Deferral

namespace Seq

variable {α : Type}

/-! ## Observers -/

/-- The greatest machine word, the one that no word comes after. -/
def greatestWord : UInt64 := 18446744073709551615

/-- A list without its last element. -/
def init? : List α → Option (List α)
  | [] => none
  | a :: rest => some (a :: rest).dropLast

/-- The sequence of the characters of a text. -/
def ofText (text : String) : Seq Value := ofList (text.toList.map .char)

section

variable (labels : Labels) (style : Style)

end

/-! ## What is shown -/

/-- Every observer of the sequence answers as the one of lists does on the elements. -/
structure Shows (s : Seq Value) (items : List Value) : Prop where
  length : s.length = items.length
  isEmpty : s.isEmpty = items.isEmpty
  first : s.first? = items.head?
  last : s.last? = items.getLast?
  /-- A sequence in memory has fewer elements than there are words. -/
  getWrapping : items.length < UInt64.size → ∀ i, s.get .wrapping i = .ok items[i.toNat]?
  getChecked : items.length < UInt64.size → ∀ i,
    s.get .checked i = if i = greatestWord then .error .overflow else .ok items[i.toNat]?
  dropFirst : s.dropFirst? = none ↔ items = []
  dropLast : s.dropLast? = none ↔ items = []
  contains : ∀ v, s.contains v = items.any (· == v)
  eqv : ∀ t, s.eqv t = (items == t.toList)
  text : ∀ text, s.text? = some text ↔ items = text.toList.map .char

/-- A way to make a sequence from one that is given. -/
inductive Construction where
  | given
  | empty
  | text (text : String)
  | collect (items : List Value)
  | pushFront (v : Value) (c : Construction)
  | pushBack (c : Construction) (v : Value)
  | dropFirst (c : Construction)
  | dropLast (c : Construction)
  | concat (c d : Construction)

namespace Construction

/-- What is made from a sequence; nothing if there is no element where one is dropped. -/
def build (s : Seq Value) : Construction → Option (Seq Value)
  | given => some s
  | empty => some .empty
  | text t => some (ofText t)
  | collect items => some (ofList items)
  | pushFront v c => (c.build s).map (Seq.pushFront v)
  | pushBack c v => (c.build s).map fun t => t.pushBack v
  | dropFirst c => (c.build s).bind dropFirst?
  | dropLast c => (c.build s).bind dropLast?
  | concat c d => (c.build s).bind fun t => (d.build s).map fun u => t.concat u

/-- What is made from a list in the same way. -/
def view (items : List Value) : Construction → Option (List Value)
  | given => some items
  | empty => some []
  | text t => some (t.toList.map .char)
  | collect items => some items
  | pushFront v c => (c.view items).map fun xs => v :: xs
  | pushBack c v => (c.view items).map fun xs => xs ++ [v]
  | dropFirst c => (c.view items).bind List.tail?
  | dropLast c => (c.view items).bind init?
  | concat c d => (c.view items).bind fun xs => (d.view items).map fun ys => xs ++ ys

end Construction

end Seq

end Deferral
