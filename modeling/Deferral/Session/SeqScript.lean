import Deferral.Directory
import Deferral.Value.Equality

/-!
# Working on a sequence step by step

The operations of sequences as commands on one sequence, and what is shown of it after each.
-/

set_option autoImplicit false

namespace Deferral

/-- An operation on a sequence. -/
inductive SeqCommand where
  | pushFront (v : Value)
  | pushBack (v : Value)
  | dropFirst
  | dropLast
  | append (items : List Value)
  | appendSelf
  | prepend (items : List Value)
  | get (place : UInt64)
  | contains (v : Value)
  | equals (items : List Value)
  | become (text : String)
  | clear

/-- What an operation gives beside the sequence. -/
inductive SeqResult where
  | nothing
  | flag (b : Bool)
  | element (v : Except Panic (Option Value))

namespace SeqCommand

/-- A sequence without an end that may not be there. -/
def shortened (s : Seq Value) : Option (Seq Value) → Seq Value × SeqResult
  | some t => (t, .flag true)
  | none => (s, .flag false)

/-- Carries out an operation. -/
def run (s : Seq Value) : SeqCommand → Seq Value × SeqResult
  | .pushFront v => (s.pushFront v, .nothing)
  | .pushBack v => (s.pushBack v, .nothing)
  | .dropFirst => shortened s s.dropFirst?
  | .dropLast => shortened s s.dropLast?
  | .append items => (s.concat (.ofList items), .nothing)
  | .appendSelf => (s.concat s, .nothing)
  | .prepend items => ((Seq.ofList items).concat s, .nothing)
  | .get place => (s, .element (s.get .wrapping place))
  | .contains v => (s, .flag (s.contains v))
  | .equals items => (s, .flag (s.eqv (.ofList items)))
  | .become text => (.ofList (text.toList.map .char), .nothing)
  | .clear => (.empty, .nothing)

end SeqCommand

/-- The elements of a sequence between brackets, whatever they are. -/
def Seq.bracketed (labels : Labels) (s : Seq Value) : String :=
  "[" ++ commaJoin (s.toList.map fun v => v.quoted labels) ++ "]"

end Deferral
