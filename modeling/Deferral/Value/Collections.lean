import Deferral.Value.Equality

/-!
# Sets and dictionaries

Membership and look-up are by equality of values. Inserting an element or key equal to a stored one
replaces the stored one in its place. The algebra is the usual one; where both operands hold an
element, the union keeps the right one's copy and the intersection the left one's, and a dictionary
built from two keeps the left value of a shared key.
-/

set_option autoImplicit false

namespace Deferral

/-- The elements of a set. -/
abbrev Items := List Value

namespace Items

def contains (items : Items) (v : Value) : Bool := items.any (· == v)

/-- Adds an element, or replaces the equal one that is there. -/
def insert : Items → Value → Items
  | [], v => [v]
  | x :: rest, v => if x == v then v :: rest else x :: insert rest v

/-- The set of the given elements. -/
def ofList (values : List Value) : Items := values.foldl insert []

def union (a b : Items) : Items := b.foldl insert a

def inter (a b : Items) : Items := ofList (a.filter b.contains)

/-- The elements of exactly one of two sets. -/
def symmDiff (a b : Items) : Items :=
  ofList (a.filter (fun v => !b.contains v) ++ b.filter (fun v => !a.contains v))

end Items

/-- The entries of a dictionary. -/
abbrev Entries := List (Value × Value)

namespace Entries

def get? (entries : Entries) (key : Value) : Option Value :=
  (entries.find? (·.1 == key)).map (·.2)

def contains (entries : Entries) (key : Value) : Bool := entries.any (·.1 == key)

/-- Adds an entry, or replaces the one with an equal key. -/
def insert : Entries → Value × Value → Entries
  | [], entry => [entry]
  | e :: rest, entry => if e.1 == entry.1 then entry :: rest else e :: insert rest entry

/-- The dictionary of the given entries; a later one replaces an earlier one. -/
def ofList (entries : List (Value × Value)) : Entries := entries.foldl insert []

/-- Adds an entry unless its key is there. -/
def insertNew (entries : Entries) (entry : Value × Value) : Entries :=
  if entries.contains entry.1 then entries else entries.insert entry

/-- The keys of either dictionary; a shared key has the left value. -/
def union (a b : Entries) : Entries := b.foldl insertNew a

/-- The shared keys, with the left values. -/
def inter (a b : Entries) : Entries := ofList (a.filter fun e => b.contains e.1)

/-- The keys of exactly one of two dictionaries. -/
def symmDiff (a b : Entries) : Entries :=
  ofList (a.filter (fun e => !b.contains e.1) ++ b.filter (fun e => !a.contains e.1))

end Entries

namespace Value

/-- The set of the given elements. -/
def setOf (values : List Value) : Value := .set (Items.ofList values)

/-- The dictionary of the given entries. -/
def dictOf (entries : List (Value × Value)) : Value := .dict (Entries.ofList entries)

/-- Consecutive values paired up as key and value. -/
def pairUp : List Value → List (Value × Value)
  | key :: value :: rest => (key, value) :: pairUp rest
  | _ => []

end Value

end Deferral
