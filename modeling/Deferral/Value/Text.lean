import Deferral.Number.Decimal
import Deferral.Text.Quoted
import Deferral.Value.Basic

/-!
# The text of a value

There are two styles. In the plain one a text is its own characters; in the quoted one characters and
texts stand between quotes, and a promise shows what has become of it. A sequence is written as text
when it is a non-empty sequence of characters, and between brackets otherwise. What a function or a
promise is written as is a parameter, since a value holds only its identity.
-/

set_option autoImplicit false

namespace Deferral

/-- How functions and promises are written. -/
structure Labels where
  function : FunctionId → String
  promise : PromiseId → String

/-- The two styles of text. -/
inductive Style where
  | plain
  | quoted
  deriving DecidableEq, Repr

/-- Texts with a comma between neighbours. -/
def commaJoin : List String → String
  | [] => ""
  | [item] => item
  | item :: next :: rest => item ++ ", " ++ commaJoin (next :: rest)

/-- The text of a sequence that is written as text. -/
def Seq.writtenText? (s : Seq Value) : Option String :=
  if s.isEmpty then none else s.text?

namespace Value

mutual

/-- The text of a value. -/
def render (labels : Labels) (style : Style) : Value → String
  | .unit => "()"
  | .bool b => if b then "true" else "false"
  | .byte b => Number.natText b.toNat ++ "b"
  | .int n => Number.intText n.toInt
  | .float x => Number.floatText x
  | .char c =>
    match style with
    | .plain => String.singleton c
    | .quoted => "'" ++ String.singleton c ++ "'"
  | .symbol name => ":" ++ name
  | .seq s =>
    match s.writtenText? with
    | some text =>
      match style with
      | .plain => text
      | .quoted => Text.quote text
    | none => "[" ++ commaJoin (renderSeq labels style s) ++ "]"
  | .tuple items =>
    match renderItems labels style items with
    | [item] => "(" ++ item ++ ",)"
    | texts => "(" ++ commaJoin texts ++ ")"
  | .set items => "\x7b" ++ commaJoin (renderItems labels style items) ++ "\x7d"
  | .dict entries => "\x7b" ++ commaJoin (renderEntries labels style entries) ++ "\x7d"
  | .function id => labels.function id
  | .module m => "<module " ++ m.name.text ++ ">"
  | .promise id =>
    match style with
    | .plain => "<promise>"
    | .quoted => labels.promise id
termination_by structural v => v

/-- The texts of the elements of a sequence. -/
def renderSeq (labels : Labels) (style : Style) : Seq Value → List String
  | ⟨front, back⟩ => renderItems labels style front ++ (renderItems labels style back).reverse
termination_by structural v => v

def renderItems (labels : Labels) (style : Style) : List Value → List String
  | [] => []
  | v :: rest => render labels style v :: renderItems labels style rest
termination_by structural v => v

def renderEntries (labels : Labels) (style : Style) : List (Value × Value) → List String
  | [] => []
  | e :: rest => renderEntry labels style e :: renderEntries labels style rest
termination_by structural v => v

def renderEntry (labels : Labels) (style : Style) : Value × Value → String
  | (k, v) => render labels style k ++ " = " ++ render labels style v
termination_by structural v => v

end

/-- The quoted text of a value. -/
def quoted (labels : Labels) (v : Value) : String := v.render labels .quoted

/-- The plain text of a value. -/
def plain (labels : Labels) (v : Value) : String := v.render labels .plain

mutual

/-- The promises in a value, at any depth. -/
def promises : Value → List PromiseId
  | .seq s => promisesSeq s
  | .tuple items => promisesItems items
  | .set items => promisesItems items
  | .dict entries => promisesEntries entries
  | .promise id => [id]
  | _ => []
termination_by structural v => v

def promisesSeq : Seq Value → List PromiseId
  | ⟨front, back⟩ => promisesItems front ++ promisesItems back
termination_by structural v => v

def promisesItems : List Value → List PromiseId
  | [] => []
  | v :: rest => promises v ++ promisesItems rest
termination_by structural v => v

def promisesEntries : List (Value × Value) → List PromiseId
  | [] => []
  | e :: rest => promisesEntry e ++ promisesEntries rest
termination_by structural v => v

def promisesEntry : Value × Value → List PromiseId
  | (k, v) => promises k ++ promises v
termination_by structural v => v

end

mutual

/-- Whether a value holds a set or dictionary of two or more entries, whose order is not fixed;
`held` answers for what a promise holds. -/
def unordered (held : PromiseId → Bool) : Value → Bool
  | .seq s => unorderedSeq held s
  | .tuple items => unorderedItems held items
  | .set items => 2 ≤ items.length || unorderedItems held items
  | .dict entries => 2 ≤ entries.length || unorderedEntries held entries
  | .promise id => held id
  | _ => false
termination_by structural v => v

def unorderedSeq (held : PromiseId → Bool) : Seq Value → Bool
  | ⟨front, back⟩ => unorderedItems held front || unorderedItems held back
termination_by structural v => v

def unorderedItems (held : PromiseId → Bool) : List Value → Bool
  | [] => false
  | v :: rest => unordered held v || unorderedItems held rest
termination_by structural v => v

def unorderedEntries (held : PromiseId → Bool) : List (Value × Value) → Bool
  | [] => false
  | e :: rest => unorderedEntry held e || unorderedEntries held rest
termination_by structural v => v

def unorderedEntry (held : PromiseId → Bool) : Value × Value → Bool
  | (k, v) => unordered held k || unordered held v
termination_by structural v => v

end

end Value

end Deferral
