import Deferral.Eval.Step
import Deferral.Proofs.Renaming.Values

/-!
# Code with other identities

Code holds identities in its literals, those of expressions and those of patterns. Renaming
reaches all of the code, expressions and patterns alike. A renamed pattern matches a renamed value as
the pattern does the value, if it looks at what is renamed in the same way (`Pattern.matching_rename`).
-/

set_option autoImplicit false

namespace Deferral

/-! ## Expressions -/

mutual

/-- The expression with the identities in its literals renamed. -/
def Expr.rename (r : Renaming) : Expr → Expr
  | .literal v => .literal (v.rename r)
  | .identifier name => .identifier name
  | .tuple items => .tuple (Expr.renameItems r items)
  | .sequence items => .sequence (Expr.renameItems r items)
  | .set items => .set (Expr.renameItems r items)
  | .dict entries => .dict (Expr.renameEntries r entries)
  | .binary op left right => .binary op (left.rename r) (right.rename r)
  | .unary op operand => .unary op (operand.rename r)
  | .branch condition onTrue onFalse =>
    .branch (condition.rename r) (onTrue.rename r) (onFalse.rename r)
  | .letIn bindings body => .letIn (Expr.renameBindings r bindings) (body.rename r)
  | .block steps => .block (Expr.renameSteps r steps)
  | .select scrutinee arms => .select (scrutinee.rename r) (Expr.renameArms r arms)
  | .lambda name params body => .lambda name params (body.rename r)
  | .call callee args location => .call (callee.rename r) (Expr.renameItems r args) location
  | .moduleDecl name exports functions => .moduleDecl name exports (Expr.renameFunctions r functions)
  | .moduleRef name => .moduleRef name
  | .functionRef module name => .functionRef (module.rename r) name
  | .spawn function => .spawn (function.rename r)
  | .raise tag message => .raise tag (message.rename r)
  | .attempt body arms => .attempt (body.rename r) (Expr.renameArms r arms)
termination_by structural e => e

def Expr.renameItems (r : Renaming) : List Expr → List Expr
  | [] => []
  | e :: rest => e.rename r :: Expr.renameItems r rest
termination_by structural es => es

def Expr.renameEntries (r : Renaming) : List (Expr × Expr) → List (Expr × Expr)
  | [] => []
  | e :: rest => Expr.renameEntry r e :: Expr.renameEntries r rest
termination_by structural es => es

def Expr.renameEntry (r : Renaming) : Expr × Expr → Expr × Expr
  | (key, value) => (key.rename r, value.rename r)
termination_by structural e => e

def Expr.renameBindings (r : Renaming) : List (Pattern × Expr) → List (Pattern × Expr)
  | [] => []
  | b :: rest => Expr.renameBinding r b :: Expr.renameBindings r rest
termination_by structural bs => bs

def Expr.renameBinding (r : Renaming) : Pattern × Expr → Pattern × Expr
  | (pattern, e) => (pattern.rename r, e.rename r)
termination_by structural b => b

def Expr.renameSteps (r : Renaming) : List Step → List Step
  | [] => []
  | step :: rest => step.rename r :: Expr.renameSteps r rest
termination_by structural steps => steps

def Expr.renameArms (r : Renaming) : List Arm → List Arm
  | [] => []
  | arm :: rest => arm.rename r :: Expr.renameArms r rest
termination_by structural arms => arms

def Expr.renameFunctions (r : Renaming) : List FunctionDecl → List FunctionDecl
  | [] => []
  | d :: rest => d.rename r :: Expr.renameFunctions r rest
termination_by structural ds => ds

def Pattern.rename (r : Renaming) : Pattern → Pattern
  | .wildcard => .wildcard
  | .literal v => .literal (v.rename r)
  | .bind name => .bind name
  | .alias name inner => .alias name (inner.rename r)
  | .tuple items => .tuple (Pattern.renameItems r items)
  | .sequence items => .sequence (Pattern.renameItems r items)
  | .cons front rest back =>
    .cons (Pattern.renameItems r front) (rest.rename r) (Pattern.renameItems r back)
  | .dict entries => .dict (Pattern.renameEntries r entries)
  | .guarded inner guard => .guarded (inner.rename r) (guard.rename r)
termination_by structural p => p

def Pattern.renameItems (r : Renaming) : List Pattern → List Pattern
  | [] => []
  | p :: rest => p.rename r :: Pattern.renameItems r rest
termination_by structural ps => ps

def Pattern.renameEntries (r : Renaming) : List (Expr × Pattern) → List (Expr × Pattern)
  | [] => []
  | e :: rest => Pattern.renameEntry r e :: Pattern.renameEntries r rest
termination_by structural es => es

def Pattern.renameEntry (r : Renaming) : Expr × Pattern → Expr × Pattern
  | (key, p) => (key.rename r, p.rename r)
termination_by structural e => e

def Step.rename (r : Renaming) : Step → Step
  | .bind pattern e => .bind (pattern.rename r) (e.rename r)
  | .run e => .run (e.rename r)
termination_by structural step => step

def Arm.rename (r : Renaming) : Arm → Arm
  | .mk pattern alternatives => .mk (pattern.rename r) (Arm.renameAlternatives r alternatives)
termination_by structural arm => arm

def Arm.renameAlternatives (r : Renaming) : List (Option Expr × Expr) → List (Option Expr × Expr)
  | [] => []
  | a :: rest => Arm.renameAlternative r a :: Arm.renameAlternatives r rest
termination_by structural as => as

def Arm.renameAlternative (r : Renaming) : Option Expr × Expr → Option Expr × Expr
  | (guard, body) => (Arm.renameGuard r guard, body.rename r)
termination_by structural a => a

def Arm.renameGuard (r : Renaming) : Option Expr → Option Expr
  | none => none
  | some guard => some (guard.rename r)
termination_by structural guard => guard

def FunctionDecl.rename (r : Renaming) : FunctionDecl → FunctionDecl
  | .mk name params body => .mk name params (body.rename r)
termination_by structural d => d

end

section

variable (r : Renaming)

@[simp] theorem Expr.renameItems_eq (items : List Expr) :
    Expr.renameItems r items = items.map (Expr.rename r) := by
  induction items with
  | nil => rfl
  | cons e rest ih => rw [Expr.renameItems, ih, List.map_cons]

theorem Expr.flatten_renameEntries (entries : List (Expr × Expr)) :
    Engine.flatten (Expr.renameEntries r entries) =
      (Engine.flatten entries).map (Expr.rename r) := by
  induction entries with
  | nil => rfl
  | cons e rest ih =>
    obtain ⟨key, value⟩ := e
    simp only [Expr.renameEntries, Expr.renameEntry, Engine.flatten, ih, List.map_cons]

@[simp] theorem Arm.pattern_rename (arm : Arm) : (arm.rename r).pattern = arm.pattern.rename r := by
  cases arm
  rfl

@[simp] theorem Arm.alternatives_rename (arm : Arm) :
    (arm.rename r).alternatives = Arm.renameAlternatives r arm.alternatives := by
  cases arm
  rfl

namespace Pattern

@[simp] theorem length_renameItems (ps : List Pattern) : (renameItems r ps).length = ps.length := by
  induction ps with
  | nil => rfl
  | cons p rest ih => simp only [renameItems, List.length_cons, ih]

mutual

theorem keys_rename : ∀ p : Pattern, (p.rename r).keys = p.keys.map (Expr.rename r)
  | .wildcard => rfl
  | .literal _ => rfl
  | .bind _ => rfl
  | .alias _ inner => by rw [rename, keys, keys, keys_rename inner]
  | .tuple items => by rw [rename, keys, keys, keysOfItems_rename items]
  | .sequence items => by rw [rename, keys, keys, keysOfItems_rename items]
  | .cons front rest back => by
    rw [rename, keys, keys, keysOfItems_rename front, keys_rename rest, keysOfItems_rename back,
      List.map_append, List.map_append]
  | .dict entries => by rw [rename, keys, keys, keysOfEntries_rename entries]
  | .guarded inner _ => by rw [rename, keys, keys, keys_rename inner]
termination_by structural p => p

theorem keysOfItems_rename : ∀ ps : List Pattern,
    keysOfItems (renameItems r ps) = (keysOfItems ps).map (Expr.rename r)
  | [] => rfl
  | p :: rest => by
    rw [renameItems, keysOfItems, keysOfItems, keys_rename p, keysOfItems_rename rest,
      List.map_append]
termination_by structural ps => ps

theorem keysOfEntries_rename : ∀ es : List (Expr × Pattern),
    keysOfEntries (renameEntries r es) = (keysOfEntries es).map (Expr.rename r)
  | [] => rfl
  | e :: rest => by
    rw [renameEntries, keysOfEntries, keysOfEntries, keysOfEntry_rename e, keysOfEntries_rename rest,
      List.map_append]
termination_by structural es => es

theorem keysOfEntry_rename : ∀ e : Expr × Pattern,
    keysOfEntry (renameEntry r e) = (keysOfEntry e).map (Expr.rename r)
  | (_, p) => by rw [renameEntry, keysOfEntry, keysOfEntry, keys_rename p, List.map_cons]
termination_by structural e => e

end

theorem badRest?_rename : ∀ p : Pattern, (p.rename r).badRest? = p.badRest?
  | .wildcard => rfl
  | .literal v => by cases v <;> rfl
  | .bind _ => rfl
  | .alias _ inner => badRest?_rename inner
  | .tuple _ => rfl
  | .sequence _ => rfl
  | .cons .. => rfl
  | .dict _ => rfl
  | .guarded inner _ => badRest?_rename inner
termination_by structural p => p

end Pattern

end

/-! ## Matching -/

/-- Names with values, with the identities in the values renamed. -/
abbrev renameBindings (r : Renaming) (bindings : List (String × Value)) : List (String × Value) :=
  bindings.map fun b => (b.1, b.2.rename r)

def Progress.rename (r : Renaming) (progress : Progress) : Progress :=
  ⟨progress.keys.map (Value.rename r), renameBindings r progress.bindings,
    progress.guards.map (Expr.rename r)⟩

def Match.rename (r : Renaming) (found : Match) : Match :=
  ⟨renameBindings r found.bindings, found.guards.map (Expr.rename r)⟩

def Matching.rename (r : Renaming) : Matching → Matching
  | .matched found => .matched (found.rename r)
  | .noMatch => .noMatch
  | .pending p => .pending (r.promise p)

/-- How far a match has come, with the identities renamed. -/
def renameStop (r : Renaming) {α β : Type} (f : α → β) : Except Stop α → Except Stop β
  | .ok a => .ok (f a)
  | .error .mismatch => .error .mismatch
  | .error (.wait p) => .error (.wait (r.promise p))
  | .error (.fail e) => .error (.fail (e.rename r))

/-- The second sight shows what the first one does, renamed. -/
structure Sight.Renames (r : Renaming) (sight sight' : Sight) : Prop where
  outcome? : ∀ p, sight'.outcome? (r.promise p) = (sight.outcome? p).map (Outcome.rename r)
  bound? : ∀ name, sight'.bound? name = (sight.bound? name).map (Value.rename r)

theorem lookup_map_snd {α β : Type} (f : α → β) (entries : List (String × α)) (name : String) :
    (entries.map fun e => (e.1, f e.2)).lookup name = (entries.lookup name).map f := by
  induction entries with
  | nil => rfl
  | cons e rest ih =>
    obtain ⟨key, a⟩ := e
    rw [List.map_cons, List.lookup_cons, List.lookup_cons]
    cases name == key with
    | true => rfl
    | false => exact ih

section

variable {r : Renaming} {sight sight' : Sight} {α β γ δ : Type}

/-- Goes on with what a match has found. -/
theorem renameStop_bind {f : α → β} {g : γ → δ} {x : Except Stop α} {k : α → Except Stop γ}
    {k' : β → Except Stop δ} (hk : ∀ a, k' (f a) = renameStop r g (k a)) :
    (renameStop r f x >>= k') = renameStop r g (x >>= k) := by
  cases x with
  | ok a => exact hk a
  | error stop => cases stop <;> rfl

namespace Sight.Renames

variable (h : Sight.Renames r sight sight')
include h

theorem settle (v : Value) :
    sight'.settle (v.rename r) = renameStop r (Value.rename r) (sight.settle v) := by
  cases v with
  | promise p =>
    have hp := h.outcome? p
    simp only [Value.rename, Sight.settle, hp]
    cases sight.outcome? p with
    | none => rfl
    | some o => cases o <;> rfl
  | _ => rfl

theorem bind (name : String) (v : Value) (progress : Progress) :
    sight'.bind name (v.rename r) (progress.rename r) =
      renameStop r (Progress.rename r) (sight.bind name v progress) := by
  have hbound : ((progress.rename r).bindings.lookup name).or (sight'.bound? name) =
      ((progress.bindings.lookup name).or (sight.bound? name)).map (Value.rename r) := by
    rw [Progress.rename, lookup_map_snd, h.bound?, Option.map_or]
  unfold Sight.bind
  rw [hbound]
  cases (progress.bindings.lookup name).or (sight.bound? name) with
  | none => rfl
  | some bound =>
    simp only [Option.map_some, h.settle]
    refine renameStop_bind fun a => renameStop_bind fun b => ?_
    simp only [Sight.require, Value.beq_rename]
    split <;> rfl

end Sight.Renames

namespace Pattern

mutual

/-- A renamed pattern goes as far with a renamed value as the pattern does. -/
theorem visit_rename (h : Sight.Renames r sight sight') :
    ∀ (p : Pattern) (v : Value) (progress : Progress),
      (p.rename r).visit sight' (v.rename r) (progress.rename r) =
        renameStop r (Progress.rename r) (p.visit sight v progress)
  | .wildcard, _, _ => rfl
  | .literal expected, v, progress => by
    rw [rename, visit, visit, h.settle]
    refine renameStop_bind fun u => ?_
    simp only [Sight.require, Value.beq_rename]
    split <;> rfl
  | .bind name, v, progress => by
    rw [rename, visit, visit]
    exact h.bind name v progress
  | .alias name inner, v, progress => by
    rw [rename, visit, visit, visit_rename h inner]
    exact renameStop_bind fun found => h.bind name v found
  | .tuple items, v, progress => by
    rw [rename, visit, visit, h.settle]
    refine renameStop_bind fun u => ?_
    cases u with
    | tuple values =>
      simp only [Value.rename_tuple, List.length_map, length_renameItems]
      split
      · exact visitItems_rename h items values progress
      · rfl
    | _ => rfl
  | .sequence items, v, progress => by
    rw [rename, visit, visit, h.settle]
    refine renameStop_bind fun u => ?_
    cases u with
    | seq s =>
      simp only [Value.rename_seq, Seq.length_map, Seq.toList_map, length_renameItems]
      split
      · exact visitItems_rename h items s.toList progress
      · rfl
    | _ => rfl
  | .cons front rest back, v, progress => by
    rw [rename, visit, visit, badRest?_rename]
    cases rest.badRest? with
    | some kind => rfl
    | none =>
      simp only [h.settle]
      refine renameStop_bind fun u => ?_
      cases u with
      | seq s =>
        simp only [Value.rename_seq, Seq.length_map, Seq.toList_map, length_renameItems]
        split
        · simp only [← List.map_take, ← List.map_drop, ← Value.rename_seqOf,
            visitItems_rename h front]
          refine renameStop_bind fun found => ?_
          rw [visit_rename h rest]
          exact renameStop_bind fun found => visitItems_rename h back _ found
        · rfl
      | _ => rfl
  | .dict entries, v, progress => by
    rw [rename, visit, visit, h.settle]
    refine renameStop_bind fun u => ?_
    cases u with
    | dict found =>
      simp only [Value.rename_dict]
      cases entries with
      | nil =>
        simp only [renameEntries, List.isEmpty_nil, if_true, Sight.require, List.isEmpty_map]
        split <;> rfl
      | cons e rest => exact visitEntries_rename h (e :: rest) found progress
    | _ => rfl
  | .guarded inner guard, v, progress => by
    rw [rename, visit, visit, visit_rename h inner]
    exact renameStop_bind fun found => rfl
termination_by structural p => p

theorem visitItems_rename (h : Sight.Renames r sight sight') :
    ∀ (ps : List Pattern) (vs : List Value) (progress : Progress),
      visitItems sight' (renameItems r ps) (vs.map (Value.rename r)) (progress.rename r) =
        renameStop r (Progress.rename r) (visitItems sight ps vs progress)
  | [], vs, _ => by cases vs <;> rfl
  | _ :: _, [], _ => rfl
  | p :: ps, v :: vs, progress => by
    rw [renameItems, List.map_cons, visitItems, visitItems, visit_rename h p]
    exact renameStop_bind fun found => visitItems_rename h ps vs found
termination_by structural ps => ps

theorem visitEntries_rename (h : Sight.Renames r sight sight') :
    ∀ (es : List (Expr × Pattern)) (found : Entries) (progress : Progress),
      visitEntries sight' (renameEntries r es) (found.rename r) (progress.rename r) =
        renameStop r (Progress.rename r) (visitEntries sight es found progress)
  | [], _, _ => rfl
  | e :: rest, found, progress => by
    rw [renameEntries, visitEntries, visitEntries, visitEntry_rename h e]
    exact renameStop_bind fun progress => visitEntries_rename h rest found progress
termination_by structural es => es

theorem visitEntry_rename (h : Sight.Renames r sight sight') :
    ∀ (e : Expr × Pattern) (found : Entries) (progress : Progress),
      visitEntry sight' (renameEntry r e) (found.rename r) (progress.rename r) =
        renameStop r (Progress.rename r) (visitEntry sight e found progress)
  | (_, p), found, ⟨[], _, _⟩ => rfl
  | (_, p), found, ⟨key :: keys, bindings, guards⟩ => by
    rw [renameEntry, visitEntry, visitEntry]
    simp only [Progress.rename, List.map_cons, Entries.get?_rename]
    cases Entries.get? found key with
    | none => rfl
    | some v => exact visit_rename h p v ⟨keys, bindings, guards⟩
termination_by structural e => e

end

/-- A renamed pattern matches a renamed value as the pattern does the value. -/
theorem matching_rename (h : Sight.Renames r sight sight') (p : Pattern) (v : Value)
    (keys : List Value) :
    (p.rename r).matching sight' (v.rename r) (keys.map (Value.rename r)) =
      renameResult r (Matching.rename r) (p.matching sight v keys) := by
  have hvisit := visit_rename h p v ⟨keys, [], []⟩
  unfold matching
  simp only [Progress.rename, List.map_nil] at hvisit
  rw [hvisit]
  cases p.visit sight v ⟨keys, [], []⟩ with
  | ok progress =>
    simp only [renameStop, Progress.rename, ← List.map_reverse]
    rfl
  | error stop => cases stop <;> rfl

end Pattern

end

end Deferral
