import Deferral.Pattern.Match

/-!
# Patterns with other expressions inside

`Pattern.mapParts f` replaces the expressions of a pattern, its keys and guards, by what `f` makes of
them. Matching never looks at these expressions, so the new pattern matches as the old one does, and
the guards it has collected are the old ones with `f` applied (`Pattern.matching_mapParts`).
-/

set_option autoImplicit false

namespace Deferral

variable (f : Expr → Expr)

namespace Pattern

mutual

/-- Replaces the keys and guards of a pattern. -/
def mapParts : Pattern → Pattern
  | .wildcard => .wildcard
  | .literal v => .literal v
  | .bind name => .bind name
  | .alias name inner => .alias name (mapParts inner)
  | .tuple items => .tuple (mapItems items)
  | .sequence items => .sequence (mapItems items)
  | .cons front rest back => .cons (mapItems front) (mapParts rest) (mapItems back)
  | .dict entries => .dict (mapEntries entries)
  | .guarded inner guard => .guarded (mapParts inner) (f guard)
termination_by structural p => p

def mapItems : List Pattern → List Pattern
  | [] => []
  | p :: rest => mapParts p :: mapItems rest
termination_by structural ps => ps

def mapEntries : List (Expr × Pattern) → List (Expr × Pattern)
  | [] => []
  | e :: rest => mapEntry e :: mapEntries rest
termination_by structural es => es

def mapEntry : Expr × Pattern → Expr × Pattern
  | (key, p) => (f key, mapParts p)
termination_by structural e => e

end

theorem length_mapItems (items : List Pattern) : (mapItems f items).length = items.length := by
  induction items with
  | nil => rfl
  | cons p rest ih => rw [mapItems, List.length_cons, List.length_cons, ih]

theorem isEmpty_mapEntries (entries : List (Expr × Pattern)) :
    (mapEntries f entries).isEmpty = entries.isEmpty := by
  cases entries <;> rfl

mutual

theorem keys_mapParts : ∀ p : Pattern, (p.mapParts f).keys = p.keys.map f
  | .wildcard => rfl
  | .literal _ => rfl
  | .bind _ => rfl
  | .alias _ inner => keys_mapParts inner
  | .tuple items => keysOfItems_mapItems items
  | .sequence items => keysOfItems_mapItems items
  | .cons front rest back => by
    rw [mapParts, keys, keys, keysOfItems_mapItems front, keys_mapParts rest,
      keysOfItems_mapItems back, List.map_append, List.map_append]
  | .dict entries => keysOfEntries_mapEntries entries
  | .guarded inner _ => keys_mapParts inner
termination_by structural p => p

theorem keysOfItems_mapItems :
    ∀ ps : List Pattern, keysOfItems (mapItems f ps) = (keysOfItems ps).map f
  | [] => rfl
  | p :: rest => by
    rw [mapItems, keysOfItems, keysOfItems, keys_mapParts p, keysOfItems_mapItems rest,
      List.map_append]
termination_by structural ps => ps

theorem keysOfEntries_mapEntries :
    ∀ es : List (Expr × Pattern), keysOfEntries (mapEntries f es) = (keysOfEntries es).map f
  | [] => rfl
  | e :: rest => by
    rw [mapEntries, keysOfEntries, keysOfEntries, keysOfEntry_mapEntry e,
      keysOfEntries_mapEntries rest, List.map_append]
termination_by structural es => es

theorem keysOfEntry_mapEntry :
    ∀ e : Expr × Pattern, keysOfEntry (mapEntry f e) = (keysOfEntry e).map f
  | (key, p) => by rw [mapEntry, keysOfEntry, keysOfEntry, keys_mapParts p, List.map_cons]
termination_by structural e => e

end

theorem badRest?_mapParts (p : Pattern) : (p.mapParts f).badRest? = p.badRest? := by
  fun_induction badRest? p with
  | case1 => rfl
  | case2 => rfl
  | case3 => rfl
  | case4 => simp_all [mapParts, badRest?]
  | case5 _ inner ih => exact ih
  | case6 inner _ ih => exact ih
  | case7 p => cases p <;> simp_all [mapParts, badRest?]

end Pattern

/-! ## Matching -/

/-- Replaces the guards that a match has collected. -/
def Progress.mapGuards (progress : Progress) : Progress :=
  { progress with guards := progress.guards.map f }

/-- Replaces the guards of a verdict. -/
def Matching.mapGuards : Matching → Matching
  | .matched m => .matched ⟨m.bindings, m.guards.map f⟩
  | .noMatch => .noMatch
  | .pending p => .pending p

/-! Matching looks at nothing of the progress but the bindings, so it does not matter whether the rest
is changed before a step or after it. -/

theorem Sight.require_map (g : Progress → Progress) (holds : Bool) (progress : Progress) :
    Sight.require holds (g progress) = (Sight.require holds progress).map g := by
  cases holds <;> rfl

theorem Sight.bind_map {g : Progress → Progress}
    (hkept : ∀ progress, (g progress).bindings = progress.bindings)
    (hbinds : ∀ progress bindings, g { progress with bindings } = { g progress with bindings })
    (sight : Sight) (name : String) (value : Value) (progress : Progress) :
    sight.bind name value (g progress) = (sight.bind name value progress).map g := by
  unfold Sight.bind
  rw [hkept]
  cases (progress.bindings.lookup name).or (sight.bound? name) with
  | none => exact congrArg Except.ok (hbinds progress _).symm
  | some bound =>
    simp only
    cases sight.settle bound with
    | error stop => rfl
    | ok a =>
      cases sight.settle value with
      | error stop => rfl
      | ok b => exact require_map g (a == b) progress

/-- One part of a match after the other. -/
theorem Progress.bind_map {g g' : Progress → Progress} {x y : Except Stop Progress}
    {next next' : Progress → Except Stop Progress} (hx : x = y.map g)
    (hnext : ∀ progress, next (g progress) = (next' progress).map g') :
    (x >>= next) = (y >>= next').map g' := by
  rw [hx]
  cases y with
  | error stop => rfl
  | ok progress => exact hnext progress

theorem Sight.bind_mapGuards (sight : Sight) (name : String) (value : Value) (progress : Progress) :
    sight.bind name value (progress.mapGuards f) =
      (sight.bind name value progress).map (Progress.mapGuards f) :=
  bind_map (g := Progress.mapGuards f) (fun _ => rfl) (fun _ _ => rfl) sight name value progress

namespace Pattern

mutual

theorem visit_mapParts (sight : Sight) :
    ∀ (p : Pattern) (value : Value) (progress : Progress),
      (p.mapParts f).visit sight value (progress.mapGuards f) =
        (p.visit sight value progress).map (Progress.mapGuards f)
  | .wildcard, _, _ => rfl
  | .bind name, value, progress => sight.bind_mapGuards f name value progress
  | .alias name inner, value, progress =>
    Progress.bind_map (visit_mapParts sight inner value progress)
      (sight.bind_mapGuards f name value)
  | .literal expected, value, progress => by
    rw [mapParts, visit, visit]
    cases sight.settle value with
    | error stop => rfl
    | ok v => exact Sight.require_map _ (v == expected) progress
  | .tuple items, value, progress => by
    rw [mapParts, visit, visit, length_mapItems]
    cases sight.settle value with
    | error stop => rfl
    | ok v =>
      cases v with
      | tuple values =>
        change (if _ then _ else _) = Except.map _ (if _ then _ else _)
        split
        · exact visitItems_mapItems sight items values progress
        · rfl
      | _ => rfl
  | .sequence items, value, progress => by
    rw [mapParts, visit, visit, length_mapItems]
    cases sight.settle value with
    | error stop => rfl
    | ok v =>
      cases v with
      | seq s =>
        change (if _ then _ else _) = Except.map _ (if _ then _ else _)
        split
        · exact visitItems_mapItems sight items s.toList progress
        · rfl
      | _ => rfl
  | .cons front rest back, value, progress => by
    rw [mapParts, visit, visit, badRest?_mapParts, length_mapItems, length_mapItems]
    cases rest.badRest? with
    | some kind => rfl
    | none =>
      simp only
      cases sight.settle value with
      | error stop => rfl
      | ok v =>
        cases v with
        | seq s =>
          change (if _ then _ else _) = Except.map _ (if _ then _ else _)
          split
          · refine Progress.bind_map (visitItems_mapItems sight front _ progress) fun progress => ?_
            refine Progress.bind_map (visit_mapParts sight rest _ progress) fun progress => ?_
            exact visitItems_mapItems sight back _ progress
          · rfl
        | _ => rfl
  | .dict entries, value, progress => by
    rw [mapParts, visit, visit, isEmpty_mapEntries]
    cases sight.settle value with
    | error stop => rfl
    | ok v =>
      cases v with
      | dict found =>
        change (if _ then _ else _) = Except.map _ (if _ then _ else _)
        split
        · exact Sight.require_map _ found.isEmpty progress
        · exact visitEntries_mapEntries sight entries found progress
      | _ => rfl
  | .guarded inner guard, value, progress =>
    Progress.bind_map (visit_mapParts sight inner value progress) fun _ => rfl
termination_by structural p => p

theorem visitItems_mapItems (sight : Sight) :
    ∀ (ps : List Pattern) (values : List Value) (progress : Progress),
      visitItems sight (mapItems f ps) values (progress.mapGuards f) =
        (visitItems sight ps values progress).map (Progress.mapGuards f)
  | [], values, progress => by cases values <;> rfl
  | p :: ps, [], progress => rfl
  | p :: ps, v :: vs, progress =>
    Progress.bind_map (visit_mapParts sight p v progress) (visitItems_mapItems sight ps vs)
termination_by structural ps => ps

theorem visitEntries_mapEntries (sight : Sight) :
    ∀ (es : List (Expr × Pattern)) (found : Entries) (progress : Progress),
      visitEntries sight (mapEntries f es) found (progress.mapGuards f) =
        (visitEntries sight es found progress).map (Progress.mapGuards f)
  | [], _, _ => rfl
  | e :: rest, found, progress =>
    Progress.bind_map (visitEntry_mapEntry sight e found progress)
      (visitEntries_mapEntries sight rest found)
termination_by structural es => es

theorem visitEntry_mapEntry (sight : Sight) :
    ∀ (e : Expr × Pattern) (found : Entries) (progress : Progress),
      visitEntry sight (mapEntry f e) found (progress.mapGuards f) =
        (visitEntry sight e found progress).map (Progress.mapGuards f)
  | (_, p), found, ⟨keys, bindings, guards⟩ => by
    rw [mapEntry, visitEntry, visitEntry]
    cases keys with
    | nil => rfl
    | cons key keys =>
      change (match Entries.get? found key with
        | none => _
        | some v => _) = Except.map _ (match Entries.get? found key with
        | none => _
        | some v => _)
      cases Entries.get? found key with
      | none => rfl
      | some v => exact visit_mapParts sight p v ⟨keys, bindings, guards⟩
termination_by structural e => e

end

/-- A pattern with other expressions inside matches as the pattern does. -/
theorem matching_mapParts (sight : Sight) (p : Pattern) (value : Value) (keys : List Value) :
    (p.mapParts f).matching sight value keys =
      (p.matching sight value keys).map (Matching.mapGuards f) := by
  have h := visit_mapParts f sight p value ⟨keys, [], []⟩
  simp only [Progress.mapGuards, List.map_nil] at h
  unfold matching
  rw [h]
  cases p.visit sight value ⟨keys, [], []⟩ with
  | ok progress => simp only [Except.map, Progress.mapGuards, Matching.mapGuards, List.map_reverse]
  | error stop => cases stop <;> rfl

end Pattern

end Deferral
