import Deferral.Environment
import Deferral.Syntax
import Deferral.Value.Collections

/-!
# Matching

A pattern is matched against a value in one pass that only looks: keys of dictionary patterns have
been evaluated before, and guards are collected for later. A name that the program has bound already,
or that the pattern has bound before, is compared and not bound. Where the pass has to look inside a
promise, a settled promise stands for its value, a failed one fails the match with its error, and a
pending one stops it: the match is to be tried again when that promise is settled.
-/

set_option autoImplicit false

namespace Deferral

/-- What a match has found so far. -/
structure Progress where
  /-- The evaluated keys that are still to be used. -/
  keys : List Value
  /-- Newest first. -/
  bindings : List (String × Value)
  /-- Newest first. -/
  guards : List Expr

/-- Why a match stopped early. -/
inductive Stop where
  | mismatch
  | wait (p : PromiseId)
  | fail (e : Error)

/-- A successful match: the names it binds and the guards that are still to hold, both in order. -/
structure Match where
  bindings : List (String × Value)
  guards : List Expr

/-- The verdict of a match. -/
inductive Matching where
  | matched (m : Match)
  | noMatch
  | pending (p : PromiseId)

/-- What matching may look at: the outcomes of promises and the names the program has bound. -/
structure Sight where
  outcome? : PromiseId → Option Outcome
  bound? : String → Option Value

namespace Sight

/-- Looks through a promise. -/
def settle (sight : Sight) : Value → Except Stop Value
  | .promise p =>
    match sight.outcome? p with
    | some (.ok v) => .ok v
    | some (.error e) => .error (.fail e)
    | none => .error (.wait p)
  | v => .ok v

/-- Goes on if a test holds. -/
def require (holds : Bool) (progress : Progress) : Except Stop Progress :=
  if holds then .ok progress else .error .mismatch

/-- Binds a name, or compares with what it is bound to. -/
def bind (sight : Sight) (name : String) (value : Value) (progress : Progress) :
    Except Stop Progress :=
  match (progress.bindings.lookup name).or (sight.bound? name) with
  | some bound => do
    let a ← sight.settle bound
    let b ← sight.settle value
    require (a == b) progress
  | none => .ok { progress with bindings := (name, value) :: progress.bindings }

end Sight

/-- The reason why a pattern can never be the rest of a sequence. -/
def Pattern.badRest? : Pattern → Option RestKind
  | .tuple _ => some .tuple
  | .dict _ => some .dictionary
  | .literal (.seq _) => none
  | .literal _ => some .otherLiteral
  | .alias _ inner => inner.badRest?
  | .guarded inner _ => inner.badRest?
  | _ => none

namespace Pattern

mutual

/-- Matches a pattern against a value, adding to the progress. -/
def visit (sight : Sight) : Pattern → Value → Progress → Except Stop Progress
  | .wildcard, _, progress => .ok progress
  | .bind name, value, progress => sight.bind name value progress
  | .alias name inner, value, progress => do
    let progress ← visit sight inner value progress
    sight.bind name value progress
  | .literal expected, value, progress => do
    let v ← sight.settle value
    Sight.require (v == expected) progress
  | .tuple items, value, progress => do
    match ← sight.settle value with
    | .tuple values =>
      if values.length = items.length then visitItems sight items values progress
      else .error .mismatch
    | _ => .error .mismatch
  | .sequence items, value, progress => do
    match ← sight.settle value with
    | .seq s =>
      if s.length = items.length then visitItems sight items s.toList progress
      else .error .mismatch
    | _ => .error .mismatch
  | .cons front rest back, value, progress =>
    match rest.badRest? with
    | some kind => .error (.fail (.resolution (.badRest kind)))
    | none => do
      match ← sight.settle value with
      | .seq s =>
        if front.length + back.length ≤ s.length then
          let values := s.toList
          let middle := s.length - back.length
          let progress ← visitItems sight front (values.take front.length) progress
          let progress ←
            visit sight rest (.seqOf ((values.take middle).drop front.length)) progress
          visitItems sight back (values.drop middle) progress
        else .error .mismatch
      | _ => .error .mismatch
  | .dict entries, value, progress => do
    match ← sight.settle value with
    | .dict found =>
      if entries.isEmpty then Sight.require found.isEmpty progress
      else visitEntries sight entries found progress
    | _ => .error .mismatch
  | .guarded inner guard, value, progress => do
    let progress ← visit sight inner value progress
    .ok { progress with guards := guard :: progress.guards }
termination_by structural p => p

/-- Matches patterns against values place by place. -/
def visitItems (sight : Sight) : List Pattern → List Value → Progress → Except Stop Progress
  | p :: ps, v :: vs, progress => do
    let progress ← visit sight p v progress
    visitItems sight ps vs progress
  | _, _, progress => .ok progress
termination_by structural ps => ps

/-- Matches the entries of a dictionary pattern, each of which uses up the next key. -/
def visitEntries (sight : Sight) :
    List (Expr × Pattern) → Entries → Progress → Except Stop Progress
  | [], _, progress => .ok progress
  | e :: rest, found, progress => do
    let progress ← visitEntry sight e found progress
    visitEntries sight rest found progress
termination_by structural es => es

def visitEntry (sight : Sight) : Expr × Pattern → Entries → Progress → Except Stop Progress
  | (_, p), found, progress =>
    match progress.keys with
    | [] => .error (.fail (.resolution .missingKey))
    | key :: keys =>
      match Entries.get? found key with
      | none => .error .mismatch
      | some v => visit sight p v { progress with keys }
termination_by structural e => e

end

/-- Matches a pattern against a value with the evaluated keys of the pattern. -/
def matching (sight : Sight) (p : Pattern) (value : Value) (keys : List Value) :
    Except Error Matching :=
  match p.visit sight value ⟨keys, [], []⟩ with
  | .ok progress => .ok (.matched ⟨progress.bindings.reverse, progress.guards.reverse⟩)
  | .error .mismatch => .ok .noMatch
  | .error (.wait p) => .ok (.pending p)
  | .error (.fail e) => .error e

end Pattern

end Deferral
