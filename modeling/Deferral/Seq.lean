/-!
# Double-ended sequences

A `Seq` keeps its elements in two lists, the second one reversed, so that both ends are cheap to
reach. `Seq.toList` is the view every other operation is described by: pushing is `cons` and `snoc`
on it, dropping is `tail` and `dropLast`, concatenation is `++`. Two sequences with the same view
are the same sequence to every reader, whatever their split.

An index is a machine word, and one more than it need not be. What happens then depends on how the
program is built (`Build`).
-/

set_option autoImplicit false

namespace Deferral

/-- How arithmetic on machine words treats an overflow: it is checked where a program is developed and
tested, and wraps around where it is released. -/
inductive Build where
  | checked
  | wrapping
  deriving DecidableEq, Repr

/-- A machine word has overflowed where that is checked: the program gives up. -/
inductive Panic where
  | overflow
  deriving DecidableEq, Repr

/-- The word after another one. -/
def Build.next (build : Build) (word : UInt64) : Except Panic UInt64 :=
  match build with
  | .checked => if word.toNat + 1 < UInt64.size then .ok (word + 1) else .error .overflow
  | .wrapping => .ok (word + 1)

/-- A sequence of which `front` is in order and `back` in reverse order. -/
structure Seq (α : Type) where
  front : List α
  back : List α

namespace Seq

variable {α : Type}

/-- The elements in order. -/
def toList (s : Seq α) : List α := s.front ++ s.back.reverse

def empty : Seq α := ⟨[], []⟩

instance : Inhabited (Seq α) := ⟨empty⟩

def ofList (items : List α) : Seq α := ⟨items, []⟩

def length (s : Seq α) : Nat := s.front.length + s.back.length

def isEmpty (s : Seq α) : Bool := s.front.isEmpty && s.back.isEmpty

def pushFront (a : α) (s : Seq α) : Seq α := ⟨a :: s.front, s.back⟩

def pushBack (s : Seq α) (a : α) : Seq α := ⟨s.front, a :: s.back⟩

/-- The first element: the head of the front, or the deepest element of the back. -/
def first? (s : Seq α) : Option α := s.front.head?.or s.back.getLast?

/-- The last element: the head of the back, or the deepest element of the front. -/
def last? (s : Seq α) : Option α := s.back.head?.or s.front.getLast?

/-- The sequence without its first element; a used-up front takes over the whole back. -/
def dropFirst? (s : Seq α) : Option (Seq α) :=
  match s.front with
  | _ :: rest => some ⟨rest, s.back⟩
  | [] =>
    match s.back.reverse with
    | _ :: rest => some ⟨rest, []⟩
    | [] => none

/-- The sequence without its last element; a used-up back takes over the whole front. -/
def dropLast? (s : Seq α) : Option (Seq α) :=
  match s.back with
  | _ :: rest => some ⟨s.front, rest⟩
  | [] =>
    match s.front.reverse with
    | _ :: rest => some ⟨[], rest⟩
    | [] => none

/-- The element at an index counted from the front; past the seam it is counted from the end, from
where the place after the index is. -/
def get (build : Build) (s : Seq α) (index : UInt64) : Except Panic (Option α) :=
  if index.toNat < s.front.length then .ok s.front[index.toNat]?
  else do
    let past ← build.next index
    return if past.toNat ≤ s.length then s.back[s.length - past.toNat]? else none

/-- The elements of `s`, then those of `t`. -/
def concat (s t : Seq α) : Seq α := t.toList.foldl pushBack s

/-! ## The view -/

@[simp] theorem toList_empty : (empty : Seq α).toList = [] := rfl

@[simp] theorem toList_ofList (items : List α) : (ofList items).toList = items := by
  simp [ofList, toList]

@[simp] theorem toList_pushFront (a : α) (s : Seq α) : (pushFront a s).toList = a :: s.toList := rfl

@[simp] theorem toList_pushBack (s : Seq α) (a : α) : (s.pushBack a).toList = s.toList ++ [a] := by
  simp [pushBack, toList]

theorem toList_foldl_pushBack (items : List α) (s : Seq α) :
    (items.foldl pushBack s).toList = s.toList ++ items := by
  induction items generalizing s with
  | nil => simp
  | cons a rest ih => rw [List.foldl_cons, ih, toList_pushBack, List.append_assoc]; rfl

theorem toList_concat (s t : Seq α) : (s.concat t).toList = s.toList ++ t.toList :=
  toList_foldl_pushBack t.toList s

theorem length_toList (s : Seq α) : s.toList.length = s.length := by
  simp [toList, length]

end Seq

end Deferral
