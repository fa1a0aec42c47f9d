import Deferral.Proofs.Pattern.MapParts
import Deferral.Proofs.Eval.Collection
import Deferral.Proofs.Termination.Constructs

/-!
# Keys line up with the entries they were written in

The keys of a pattern are evaluated into one flat list, and a match takes its keys from that list as it
comes to them. In a `KeyedPattern` each entry of a dictionary has a key of its own, a value; it is
matched without any list. `Engine.evalKeyed` evaluates each key of a pattern in its place and leaves it
there.

Both ways evaluate the same expressions in the same order (`evalItems_keys`), and then both ways match
alike (`visit_carries`): where a part of the pattern is done, exactly its keys have been used. With
`Engine.keys_line_up` this holds of the keys as they come from evaluation, and of what stands for them
once all of them are there.
-/

set_option autoImplicit false

namespace Deferral

/-- A pattern in which each entry of a dictionary carries its evaluated key. -/
inductive KeyedPattern where
  | wildcard
  | literal (value : Value)
  | bind (name : String)
  | alias (name : String) (inner : KeyedPattern)
  | tuple (items : List KeyedPattern)
  | sequence (items : List KeyedPattern)
  | cons (front : List KeyedPattern) (rest : KeyedPattern) (back : List KeyedPattern)
  | dict (entries : List (Value × KeyedPattern))
  | guarded (inner : KeyedPattern) (guard : Expr)

namespace KeyedPattern

mutual

/-- The keys, in the order in which they are written. -/
def keys : KeyedPattern → List Value
  | .wildcard => []
  | .literal _ => []
  | .bind _ => []
  | .alias _ inner => keys inner
  | .tuple items => keysOfItems items
  | .sequence items => keysOfItems items
  | .cons front rest back => keysOfItems front ++ (keys rest ++ keysOfItems back)
  | .dict entries => keysOfEntries entries
  | .guarded inner _ => keys inner
termination_by structural k => k

def keysOfItems : List KeyedPattern → List Value
  | [] => []
  | k :: rest => keys k ++ keysOfItems rest
termination_by structural ks => ks

def keysOfEntries : List (Value × KeyedPattern) → List Value
  | [] => []
  | e :: rest => keysOfEntry e ++ keysOfEntries rest
termination_by structural es => es

def keysOfEntry : Value × KeyedPattern → List Value
  | (key, k) => key :: keys k
termination_by structural e => e

end

section

variable (f : Value → Value)

mutual

/-- Replaces the key of each entry. -/
def mapKeys : KeyedPattern → KeyedPattern
  | .wildcard => .wildcard
  | .literal v => .literal v
  | .bind name => .bind name
  | .alias name inner => .alias name (mapKeys inner)
  | .tuple items => .tuple (mapItems items)
  | .sequence items => .sequence (mapItems items)
  | .cons front rest back => .cons (mapItems front) (mapKeys rest) (mapItems back)
  | .dict entries => .dict (mapEntries entries)
  | .guarded inner guard => .guarded (mapKeys inner) guard
termination_by structural k => k

def mapItems : List KeyedPattern → List KeyedPattern
  | [] => []
  | k :: rest => mapKeys k :: mapItems rest
termination_by structural ks => ks

def mapEntries : List (Value × KeyedPattern) → List (Value × KeyedPattern)
  | [] => []
  | e :: rest => mapEntry e :: mapEntries rest
termination_by structural es => es

def mapEntry : Value × KeyedPattern → Value × KeyedPattern
  | (key, k) => (f key, mapKeys k)
termination_by structural e => e

end

mutual

theorem keys_mapKeys : ∀ k : KeyedPattern, (k.mapKeys f).keys = k.keys.map f
  | .wildcard => rfl
  | .literal _ => rfl
  | .bind _ => rfl
  | .alias _ inner => keys_mapKeys inner
  | .tuple items => keysOfItems_mapItems items
  | .sequence items => keysOfItems_mapItems items
  | .cons front rest back => by
    rw [mapKeys, keys, keys, keysOfItems_mapItems front, keys_mapKeys rest, keysOfItems_mapItems back,
      List.map_append, List.map_append]
  | .dict entries => keysOfEntries_mapEntries entries
  | .guarded inner _ => keys_mapKeys inner
termination_by structural k => k

theorem keysOfItems_mapItems :
    ∀ ks : List KeyedPattern, keysOfItems (mapItems f ks) = (keysOfItems ks).map f
  | [] => rfl
  | k :: rest => by
    rw [mapItems, keysOfItems, keysOfItems, keys_mapKeys k, keysOfItems_mapItems rest, List.map_append]
termination_by structural ks => ks

theorem keysOfEntries_mapEntries :
    ∀ es : List (Value × KeyedPattern), keysOfEntries (mapEntries f es) = (keysOfEntries es).map f
  | [] => rfl
  | e :: rest => by
    rw [mapEntries, keysOfEntries, keysOfEntries, keysOfEntry_mapEntry e, keysOfEntries_mapEntries rest,
      List.map_append]
termination_by structural es => es

theorem keysOfEntry_mapEntry :
    ∀ e : Value × KeyedPattern, keysOfEntry (mapEntry f e) = (keysOfEntry e).map f
  | (key, k) => by rw [mapEntry, keysOfEntry, keysOfEntry, keys_mapKeys k, List.map_cons]
termination_by structural e => e

end

end

/-! ## Matching without a list of keys -/

/-- The reason why a pattern can never be the rest of a sequence. -/
def badRest? : KeyedPattern → Option RestKind
  | .tuple _ => some .tuple
  | .dict _ => some .dictionary
  | .literal (.seq _) => none
  | .literal _ => some .otherLiteral
  | .alias _ inner => inner.badRest?
  | .guarded inner _ => inner.badRest?
  | _ => none

mutual

/-- Matches a pattern against a value. The list of keys in the progress is never looked at. -/
def visit (sight : Sight) : KeyedPattern → Value → Progress → Except Stop Progress
  | .wildcard, _, progress => .ok progress
  | .bind name, value, progress => sight.bind name value progress
  | .alias name inner, value, progress => do
    let progress ← visit sight inner value progress
    sight.bind name value progress
  | .literal expected, value, progress => do
    let v ← sight.settle value
    Sight.require (v == expected) progress
  | .tuple items, value, progress => do
    match ← sight.settle value with
    | .tuple values =>
      if values.length = items.length then visitItems sight items values progress
      else .error .mismatch
    | _ => .error .mismatch
  | .sequence items, value, progress => do
    match ← sight.settle value with
    | .seq s =>
      if s.length = items.length then visitItems sight items s.toList progress
      else .error .mismatch
    | _ => .error .mismatch
  | .cons front rest back, value, progress =>
    match rest.badRest? with
    | some kind => .error (.fail (.resolution (.badRest kind)))
    | none => do
      match ← sight.settle value with
      | .seq s =>
        if front.length + back.length ≤ s.length then
          let values := s.toList
          let middle := s.length - back.length
          let progress ← visitItems sight front (values.take front.length) progress
          let progress ←
            visit sight rest (.seqOf ((values.take middle).drop front.length)) progress
          visitItems sight back (values.drop middle) progress
        else .error .mismatch
      | _ => .error .mismatch
  | .dict entries, value, progress => do
    match ← sight.settle value with
    | .dict found =>
      if entries.isEmpty then Sight.require found.isEmpty progress
      else visitEntries sight entries found progress
    | _ => .error .mismatch
  | .guarded inner guard, value, progress => do
    let progress ← visit sight inner value progress
    .ok { progress with guards := guard :: progress.guards }
termination_by structural k => k

def visitItems (sight : Sight) :
    List KeyedPattern → List Value → Progress → Except Stop Progress
  | k :: ks, v :: vs, progress => do
    let progress ← visit sight k v progress
    visitItems sight ks vs progress
  | _, _, progress => .ok progress
termination_by structural ks => ks

def visitEntries (sight : Sight) :
    List (Value × KeyedPattern) → Entries → Progress → Except Stop Progress
  | [], _, progress => .ok progress
  | e :: rest, found, progress => do
    let progress ← visitEntry sight e found progress
    visitEntries sight rest found progress
termination_by structural es => es

/-- Looks up the key of the entry itself. -/
def visitEntry (sight : Sight) : Value × KeyedPattern → Entries → Progress → Except Stop Progress
  | (key, k), found, progress =>
    match Entries.get? found key with
    | none => .error .mismatch
    | some v => visit sight k v progress
termination_by structural e => e

end

/-- Matches a pattern against a value. -/
def matching (sight : Sight) (k : KeyedPattern) (value : Value) : Except Error Matching :=
  match k.visit sight value ⟨[], [], []⟩ with
  | .ok progress => .ok (.matched ⟨progress.bindings.reverse, progress.guards.reverse⟩)
  | .error .mismatch => .ok .noMatch
  | .error (.wait p) => .ok (.pending p)
  | .error (.fail e) => .error e

end KeyedPattern

/-! ## Failures -/

/-- An error is that of a promise, or refuses the rest of a sequence. -/
def Sight.Blames (sight : Sight) (e : Error) : Prop :=
  (∃ p, sight.outcome? p = some (.error e)) ∨ ∃ kind, e = .resolution (.badRest kind)

/-- If a part of a match fails, then with an error of these. -/
def Sight.Answers (sight : Sight) {α : Type} (r : Except Stop α) : Prop :=
  ∀ e, r = .error (.fail e) → sight.Blames e

namespace Sight.Answers

variable {sight : Sight} {α β : Type}

theorem ok (a : α) : sight.Answers (.ok a) := nofun

theorem mismatch : sight.Answers (.error .mismatch : Except Stop α) := nofun

theorem bind {r : Except Stop α} {f : α → Except Stop β} (hr : sight.Answers r)
    (hf : ∀ a, sight.Answers (f a)) : sight.Answers (r >>= f) := by
  cases r with
  | error stop => exact fun e h => hr e (congrArg _ (Except.error.inj h))
  | ok a => exact hf a

theorem settle (v : Value) : sight.Answers (sight.settle v) := by
  cases v with
  | promise p =>
    intro e h
    simp only [Sight.settle] at h
    split at h
    · cases h
    · rename_i he
      obtain rfl := Stop.fail.inj (Except.error.inj h)
      exact .inl ⟨p, he⟩
    · cases h
  | _ => exact ok _

theorem require (holds : Bool) (progress : Progress) : sight.Answers (Sight.require holds progress) := by
  cases holds with
  | true => exact ok _
  | false => exact mismatch

theorem bindName (name : String) (v : Value) (progress : Progress) :
    sight.Answers (sight.bind name v progress) := by
  unfold Sight.bind
  split
  · exact .bind (.settle _) fun _ => .bind (.settle _) fun _ => .require _ _
  · exact ok _

end Sight.Answers

namespace KeyedPattern

mutual

theorem answers_visit (sight : Sight) : ∀ (k : KeyedPattern) (v : Value) (progress : Progress),
    sight.Answers (k.visit sight v progress)
  | .wildcard, _, progress => .ok progress
  | .bind name, v, progress => .bindName name v progress
  | .alias name inner, v, progress => .bind (answers_visit sight inner v progress) (.bindName name v)
  | .literal _, v, progress => .bind (.settle v) fun _ => .require _ progress
  | .tuple items, v, progress => by
    refine .bind (.settle v) fun v => ?_
    split
    · split
      · exact answers_visitItems sight items _ progress
      · exact .mismatch
    · exact .mismatch
  | .sequence items, v, progress => by
    refine .bind (.settle v) fun v => ?_
    split
    · split
      · exact answers_visitItems sight items _ progress
      · exact .mismatch
    · exact .mismatch
  | .cons front rest back, v, progress => by
    rw [visit]
    split
    · rename_i kind _
      intro e h
      obtain rfl := Stop.fail.inj (Except.error.inj h)
      exact .inr ⟨kind, rfl⟩
    · refine .bind (.settle v) fun v => ?_
      split
      · split
        · exact .bind (answers_visitItems sight front _ progress) fun progress =>
            .bind (answers_visit sight rest _ progress) (answers_visitItems sight back _)
        · exact .mismatch
      · exact .mismatch
  | .dict entries, v, progress => by
    refine .bind (.settle v) fun v => ?_
    split
    · split
      · exact .require _ progress
      · exact answers_visitEntries sight entries _ progress
    · exact .mismatch
  | .guarded inner _, v, progress => .bind (answers_visit sight inner v progress) fun _ => .ok _
termination_by structural k => k

theorem answers_visitItems (sight : Sight) : ∀ (ks : List KeyedPattern) (vs : List Value)
    (progress : Progress), sight.Answers (visitItems sight ks vs progress)
  | [], _, progress => .ok progress
  | _ :: _, [], progress => .ok progress
  | k :: ks, v :: vs, progress =>
    .bind (answers_visit sight k v progress) (answers_visitItems sight ks vs)
termination_by structural ks => ks

theorem answers_visitEntries (sight : Sight) : ∀ (es : List (Value × KeyedPattern)) (found : Entries)
    (progress : Progress), sight.Answers (visitEntries sight es found progress)
  | [], _, progress => .ok progress
  | e :: rest, found, progress =>
    .bind (answers_visitEntry sight e found progress) (answers_visitEntries sight rest found)
termination_by structural es => es

theorem answers_visitEntry (sight : Sight) : ∀ (e : Value × KeyedPattern) (found : Entries)
    (progress : Progress), sight.Answers (visitEntry sight e found progress)
  | (_, k), _, progress => by
    rw [visitEntry]
    split
    · exact .mismatch
    · exact answers_visit sight k _ progress
termination_by structural e => e

end

theorem blames_of_matching {sight : Sight} {k : KeyedPattern} {v : Value} {e : Error}
    (h : k.matching sight v = .error e) : sight.Blames e := by
  unfold matching at h
  split at h
  · cases h
  · cases h
  · cases h
  · rename_i e' hvisit
    obtain rfl := Except.error.inj h
    exact answers_visit sight k v ⟨[], [], []⟩ e' hvisit

end KeyedPattern

/-! ## Patterns and keyed patterns -/

namespace Pattern

mutual

/-- The keyed pattern is the pattern, with some value for each key. -/
def Carries : Pattern → KeyedPattern → Prop
  | .wildcard, k => k = .wildcard
  | .literal v, k => k = .literal v
  | .bind name, k => k = .bind name
  | .alias name inner, k => ∃ inner', k = .alias name inner' ∧ Carries inner inner'
  | .tuple items, k => ∃ items', k = .tuple items' ∧ CarriesItems items items'
  | .sequence items, k => ∃ items', k = .sequence items' ∧ CarriesItems items items'
  | .cons front rest back, k => ∃ front' rest' back', k = .cons front' rest' back' ∧
      CarriesItems front front' ∧ Carries rest rest' ∧ CarriesItems back back'
  | .dict entries, k => ∃ entries', k = .dict entries' ∧ CarriesEntries entries entries'
  | .guarded inner guard, k => ∃ inner', k = .guarded inner' guard ∧ Carries inner inner'
termination_by structural p => p

def CarriesItems : List Pattern → List KeyedPattern → Prop
  | [], ks => ks = []
  | p :: ps, ks => ∃ k ks', ks = k :: ks' ∧ Carries p k ∧ CarriesItems ps ks'
termination_by structural ps => ps

def CarriesEntries : List (Expr × Pattern) → List (Value × KeyedPattern) → Prop
  | [], es => es = []
  | e :: rest, es => ∃ e' rest', es = e' :: rest' ∧ CarriesEntry e e' ∧ CarriesEntries rest rest'
termination_by structural es => es

def CarriesEntry : Expr × Pattern → Value × KeyedPattern → Prop
  | (_, p), e => Carries p e.2
termination_by structural e => e

end

theorem CarriesItems.length_eq : ∀ {ps : List Pattern} {ks : List KeyedPattern},
    CarriesItems ps ks → ks.length = ps.length
  | [], _, h => congrArg List.length h
  | _ :: _, _, ⟨_, _, heq, _, h⟩ => by rw [heq, List.length_cons, List.length_cons, h.length_eq]

theorem CarriesEntries.isEmpty_eq {es : List (Expr × Pattern)} {es' : List (Value × KeyedPattern)}
    (h : CarriesEntries es es') : es'.isEmpty = es.isEmpty := by
  cases es with
  | nil =>
    obtain rfl := h
    rfl
  | cons e rest =>
    obtain ⟨_, _, rfl, -⟩ := h
    rfl

theorem Carries.badRest? : ∀ {p : Pattern} {k : KeyedPattern}, Carries p k → k.badRest? = p.badRest?
  | .alias _ inner, _, ⟨_, heq, h⟩ => by
    have hinner := Carries.badRest? h
    rw [heq]
    exact hinner
  | .guarded inner _, _, ⟨_, heq, h⟩ => by
    have hinner := Carries.badRest? h
    rw [heq]
    exact hinner
  | .literal v, _, h => by
    rw [h]
    cases v <;> rfl
  | .wildcard, _, h => by rw [h]; rfl
  | .bind _, _, h => by rw [h]; rfl
  | .tuple _, _, ⟨_, heq, _⟩ => by rw [heq]; rfl
  | .sequence _, _, ⟨_, heq, _⟩ => by rw [heq]; rfl
  | .cons _ _ _, _, ⟨_, _, _, heq, _⟩ => by rw [heq]; rfl
  | .dict _, _, ⟨_, heq, _⟩ => by rw [heq]; rfl

section

variable (f : Value → Value)

mutual

theorem Carries.mapKeys : ∀ {p : Pattern} {k : KeyedPattern}, Carries p k → Carries p (k.mapKeys f)
  | .wildcard, _, h => by rw [h]; rfl
  | .literal _, _, h => by rw [h]; rfl
  | .bind _, _, h => by rw [h]; rfl
  | .alias _ _, _, ⟨_, heq, h⟩ => heq ▸ ⟨_, rfl, Carries.mapKeys h⟩
  | .tuple _, _, ⟨_, heq, h⟩ => heq ▸ ⟨_, rfl, CarriesItems.mapItems h⟩
  | .sequence _, _, ⟨_, heq, h⟩ => heq ▸ ⟨_, rfl, CarriesItems.mapItems h⟩
  | .cons _ _ _, _, ⟨_, _, _, heq, hfront, hrest, hback⟩ =>
    heq ▸ ⟨_, _, _, rfl, CarriesItems.mapItems hfront, Carries.mapKeys hrest,
      CarriesItems.mapItems hback⟩
  | .dict _, _, ⟨_, heq, h⟩ => heq ▸ ⟨_, rfl, CarriesEntries.mapEntries h⟩
  | .guarded _ _, _, ⟨_, heq, h⟩ => heq ▸ ⟨_, rfl, Carries.mapKeys h⟩

theorem CarriesItems.mapItems : ∀ {ps : List Pattern} {ks : List KeyedPattern},
    CarriesItems ps ks → CarriesItems ps (KeyedPattern.mapItems f ks)
  | [], _, h => by rw [h]; rfl
  | _ :: _, _, ⟨_, _, heq, hp, hps⟩ =>
    heq ▸ ⟨_, _, rfl, Carries.mapKeys hp, CarriesItems.mapItems hps⟩

theorem CarriesEntries.mapEntries : ∀ {es : List (Expr × Pattern)} {es' : List (Value × KeyedPattern)},
    CarriesEntries es es' → CarriesEntries es (KeyedPattern.mapEntries f es')
  | [], _, h => by rw [h]; rfl
  | _ :: _, _, ⟨_, _, heq, he, hrest⟩ =>
    heq ▸ ⟨_, _, rfl, CarriesEntry.mapEntry he, CarriesEntries.mapEntries hrest⟩

theorem CarriesEntry.mapEntry : ∀ {e : Expr × Pattern} {e' : Value × KeyedPattern},
    CarriesEntry e e' → CarriesEntry e (KeyedPattern.mapEntry f e')
  | (_, _), (_, _), h => Carries.mapKeys h

end

end

end Pattern

/-! ## Both ways match alike -/

/-- The keys that are left for later. -/
def Progress.leaving (keys : List Value) (progress : Progress) : Progress := { progress with keys }

section

variable {sight : Sight} {keys : List Value}

theorem Sight.bind_leaving (name : String) (value : Value) (progress : Progress) :
    sight.bind name value (progress.leaving keys) =
      (sight.bind name value progress).map (Progress.leaving keys) :=
  bind_map (g := Progress.leaving keys) (fun _ => rfl) (fun _ _ => rfl) sight name value progress

end

namespace Pattern

mutual

/-- With the keys of the keyed pattern in front, a match comes to the same, and uses just them. -/
theorem visit_carries (sight : Sight) : ∀ {p : Pattern} {k : KeyedPattern} (v : Value)
    (progress : Progress) (keys : List Value), Carries p k →
      p.visit sight v (progress.leaving (k.keys ++ keys)) =
        (k.visit sight v progress).map (Progress.leaving keys)
  | .wildcard, _, _, _, _, h => by
    rw [h]
    rfl
  | .bind name, _, v, progress, _, h => by
    rw [h]
    exact Sight.bind_leaving name v progress
  | .alias name inner, _, v, progress, keys, ⟨_, heq, h⟩ => by
    rw [heq]
    exact Progress.bind_map (visit_carries sight v progress keys h) (Sight.bind_leaving name v)
  | .literal expected, _, v, progress, _, h => by
    rw [h, visit, KeyedPattern.visit]
    cases sight.settle v with
    | error stop => rfl
    | ok v => exact Sight.require_map _ (v == expected) progress
  | .tuple items, _, v, progress, keys, ⟨_, heq, h⟩ => by
    rw [heq, visit, KeyedPattern.visit, h.length_eq]
    cases sight.settle v with
    | error stop => rfl
    | ok v =>
      cases v with
      | tuple values =>
        change (if _ then _ else _) = Except.map _ (if _ then _ else _)
        split
        · rename_i hlength
          exact visitItems_carries sight values progress keys h hlength
        · rfl
      | _ => rfl
  | .sequence items, _, v, progress, keys, ⟨_, heq, h⟩ => by
    rw [heq, visit, KeyedPattern.visit, h.length_eq]
    cases sight.settle v with
    | error stop => rfl
    | ok v =>
      cases v with
      | seq s =>
        change (if _ then _ else _) = Except.map _ (if _ then _ else _)
        split
        · rename_i hlength
          exact visitItems_carries sight s.toList progress keys h (s.length_toList.trans hlength)
        · rfl
      | _ => rfl
  | .cons front rest back, _, v, progress, keys, ⟨_, _, _, heq, hfront, hrest, hback⟩ => by
    rw [heq, visit, KeyedPattern.visit, hrest.badRest?, hfront.length_eq, hback.length_eq]
    cases rest.badRest? with
    | some kind => rfl
    | none =>
      simp only
      cases sight.settle v with
      | error stop => rfl
      | ok v =>
        cases v with
        | seq s =>
          change (if _ then _ else _) = Except.map _ (if _ then _ else _)
          split
          · rename_i hlength
            have htotal := s.length_toList
            rw [KeyedPattern.keys, List.append_assoc, List.append_assoc]
            refine Progress.bind_map (visitItems_carries sight _ progress _ hfront
              (List.length_take_of_le (by omega))) fun progress => ?_
            refine Progress.bind_map (visit_carries sight _ progress _ hrest) fun progress => ?_
            exact visitItems_carries sight _ progress keys hback (by rw [List.length_drop]; omega)
          · rfl
        | _ => rfl
  | .dict entries, _, v, progress, keys, ⟨_, heq, h⟩ => by
    rw [heq, visit, KeyedPattern.visit, h.isEmpty_eq]
    cases sight.settle v with
    | error stop => rfl
    | ok v =>
      cases v with
      | dict found =>
        change (if _ then _ else _) = Except.map _ (if _ then _ else _)
        split
        · rename_i hempty
          obtain rfl := List.isEmpty_iff.1 hempty
          obtain rfl := h
          exact Sight.require_map _ found.isEmpty progress
        · exact visitEntries_carries sight found progress keys h
      | _ => rfl
  | .guarded inner guard, _, v, progress, keys, ⟨_, heq, h⟩ => by
    rw [heq]
    exact Progress.bind_map (visit_carries sight v progress keys h) fun _ => rfl

theorem visitItems_carries (sight : Sight) : ∀ {ps : List Pattern} {ks : List KeyedPattern}
    (vs : List Value) (progress : Progress) (keys : List Value), CarriesItems ps ks →
      vs.length = ps.length →
      visitItems sight ps vs (progress.leaving (KeyedPattern.keysOfItems ks ++ keys)) =
        (KeyedPattern.visitItems sight ks vs progress).map (Progress.leaving keys)
  | [], _, vs, _, _, h, hlength => by
    rw [h]
    cases vs <;> rfl
  | _ :: _, _, [], _, _, _, hlength => by cases hlength
  | _ :: _, _, v :: vs, progress, keys, ⟨_, _, heq, hp, hps⟩, hlength => by
    rw [heq, KeyedPattern.keysOfItems, List.append_assoc]
    exact Progress.bind_map (visit_carries sight v progress _ hp) fun progress =>
      visitItems_carries sight vs progress keys hps (Nat.succ.inj hlength)

theorem visitEntries_carries (sight : Sight) : ∀ {es : List (Expr × Pattern)}
    {es' : List (Value × KeyedPattern)} (found : Entries) (progress : Progress) (keys : List Value),
      CarriesEntries es es' →
      visitEntries sight es found (progress.leaving (KeyedPattern.keysOfEntries es' ++ keys)) =
        (KeyedPattern.visitEntries sight es' found progress).map (Progress.leaving keys)
  | [], _, _, _, _, h => by
    rw [h]
    rfl
  | _ :: _, _, found, progress, keys, ⟨_, _, heq, he, hrest⟩ => by
    rw [heq, KeyedPattern.keysOfEntries, List.append_assoc]
    exact Progress.bind_map (visitEntry_carries sight found progress _ he) fun progress =>
      visitEntries_carries sight found progress keys hrest

theorem visitEntry_carries (sight : Sight) : ∀ {e : Expr × Pattern} {e' : Value × KeyedPattern}
    (found : Entries) (progress : Progress) (keys : List Value), CarriesEntry e e' →
      visitEntry sight e found (progress.leaving (KeyedPattern.keysOfEntry e' ++ keys)) =
        (KeyedPattern.visitEntry sight e' found progress).map (Progress.leaving keys)
  | (_, p), (key, k), found, progress, keys, h => by
    change (match Entries.get? found key with
      | none => _
      | some v => p.visit sight v (progress.leaving (k.keys ++ keys))) = Except.map _
        (match Entries.get? found key with
        | none => _
        | some v => _)
    cases Entries.get? found key with
    | none => rfl
    | some v => exact visit_carries sight v progress keys h

end

/-- The list of keys and the keys in their entries are as good as each other, whatever the value and the
scope: the verdict is the same, all keys of the list are used by a match that succeeds, and none is ever
missing from it. -/
structure LinesUp (p : Pattern) (keys : List Value) (k : KeyedPattern) : Prop where
  verdict : ∀ sight v, p.matching sight v keys = k.matching sight v
  used : ∀ sight v progress, p.visit sight v ⟨keys, [], []⟩ = .ok progress → progress.keys = []
  missing : ∀ sight v e, p.matching sight v keys = .error e → sight.Blames e

theorem Carries.linesUp {p : Pattern} {k : KeyedPattern} (h : p.Carries k) : p.LinesUp k.keys k := by
  have hvisit : ∀ sight v, p.visit sight v ⟨k.keys, [], []⟩ =
      (k.visit sight v ⟨[], [], []⟩).map (Progress.leaving []) := by
    intro sight v
    have hkeys := visit_carries sight v ⟨[], [], []⟩ [] h
    rwa [List.append_nil] at hkeys
  have hverdict : ∀ sight v, p.matching sight v k.keys = k.matching sight v := by
    intro sight v
    rw [matching, KeyedPattern.matching, hvisit]
    cases k.visit sight v ⟨[], [], []⟩ with
    | ok progress => rfl
    | error stop => cases stop <;> rfl
  refine ⟨hverdict, fun sight v progress hprogress => ?_, fun sight v e he => ?_⟩
  · rw [hvisit] at hprogress
    cases hk : k.visit sight v ⟨[], [], []⟩ with
    | ok found =>
      rw [hk] at hprogress
      obtain rfl := Except.ok.inj hprogress
      rfl
    | error stop =>
      rw [hk] at hprogress
      cases hprogress
  · rw [hverdict] at he
    exact KeyedPattern.blames_of_matching he

end Pattern

/-! ## Keys in their places -/

namespace Engine

variable (E : Engine)

mutual

/-- Evaluates each key of a pattern in its place. -/
def evalKeyed : Pattern → EvalM KeyedPattern
  | .wildcard => pure .wildcard
  | .literal v => pure (.literal v)
  | .bind name => pure (.bind name)
  | .alias name inner => do
    let inner ← evalKeyed inner
    return .alias name inner
  | .tuple items => do
    let items ← evalKeyedItems items
    return .tuple items
  | .sequence items => do
    let items ← evalKeyedItems items
    return .sequence items
  | .cons front rest back => do
    let front ← evalKeyedItems front
    let rest ← evalKeyed rest
    let back ← evalKeyedItems back
    return .cons front rest back
  | .dict entries => do
    let entries ← evalKeyedEntries entries
    return .dict entries
  | .guarded inner guard => do
    let inner ← evalKeyed inner
    return .guarded inner guard
termination_by structural p => p

def evalKeyedItems : List Pattern → EvalM (List KeyedPattern)
  | [] => pure []
  | p :: ps => do
    let k ← evalKeyed p
    let ks ← evalKeyedItems ps
    return k :: ks
termination_by structural ps => ps

def evalKeyedEntries : List (Expr × Pattern) → EvalM (List (Value × KeyedPattern))
  | [] => pure []
  | e :: rest => do
    let e ← evalKeyedEntry e
    let rest ← evalKeyedEntries rest
    return e :: rest
termination_by structural es => es

def evalKeyedEntry : Expr × Pattern → EvalM (Value × KeyedPattern)
  | (key, p) => do
    let v ← E.eval key
    let k ← evalKeyed p
    return (v, k)
termination_by structural e => e

end

theorem evalItems_append (es es' : List Expr) :
    E.evalItems (es ++ es') = do
      let vs ← E.evalItems es
      let vs' ← E.evalItems es'
      return vs ++ vs' := by
  induction es with
  | nil => simp [evalItems]
  | cons e rest ih => simp [evalItems, ih]

mutual

/-- The list of keys is what evaluation in place leaves, read in order. -/
theorem evalItems_keys : ∀ p : Pattern, E.evalItems p.keys = KeyedPattern.keys <$> E.evalKeyed p
  | .wildcard => by simp [Pattern.keys, evalItems, evalKeyed, KeyedPattern.keys]
  | .literal _ => by simp [Pattern.keys, evalItems, evalKeyed, KeyedPattern.keys]
  | .bind _ => by simp [Pattern.keys, evalItems, evalKeyed, KeyedPattern.keys]
  | .alias _ inner => by
    simp [Pattern.keys, evalKeyed, KeyedPattern.keys, evalItems_keys inner]
  | .tuple items => by
    simp [Pattern.keys, evalKeyed, KeyedPattern.keys, evalItems_keysOfItems items]
  | .sequence items => by
    simp [Pattern.keys, evalKeyed, KeyedPattern.keys, evalItems_keysOfItems items]
  | .cons front rest back => by
    simp [Pattern.keys, evalKeyed, KeyedPattern.keys, evalItems_append, evalItems_keysOfItems front,
      evalItems_keys rest, evalItems_keysOfItems back]
  | .dict entries => by
    simp [Pattern.keys, evalKeyed, KeyedPattern.keys, evalItems_keysOfEntries entries]
  | .guarded inner _ => by
    simp [Pattern.keys, evalKeyed, KeyedPattern.keys, evalItems_keys inner]
termination_by structural p => p

theorem evalItems_keysOfItems : ∀ ps : List Pattern,
    E.evalItems (Pattern.keysOfItems ps) = KeyedPattern.keysOfItems <$> E.evalKeyedItems ps
  | [] => by simp [Pattern.keysOfItems, evalItems, evalKeyedItems, KeyedPattern.keysOfItems]
  | p :: ps => by
    simp [Pattern.keysOfItems, evalKeyedItems, KeyedPattern.keysOfItems, evalItems_append,
      evalItems_keys p, evalItems_keysOfItems ps]
termination_by structural ps => ps

theorem evalItems_keysOfEntries : ∀ es : List (Expr × Pattern),
    E.evalItems (Pattern.keysOfEntries es) = KeyedPattern.keysOfEntries <$> E.evalKeyedEntries es
  | [] => by simp [Pattern.keysOfEntries, evalItems, evalKeyedEntries, KeyedPattern.keysOfEntries]
  | e :: rest => by
    simp [Pattern.keysOfEntries, evalKeyedEntries, KeyedPattern.keysOfEntries, evalItems_append,
      evalItems_keysOfEntry e, evalItems_keysOfEntries rest]
termination_by structural es => es

theorem evalItems_keysOfEntry : ∀ e : Expr × Pattern,
    E.evalItems (Pattern.keysOfEntry e) = KeyedPattern.keysOfEntry <$> E.evalKeyedEntry e
  | (key, p) => by
    simp [Pattern.keysOfEntry, evalItems, evalKeyedEntry, KeyedPattern.keysOfEntry, evalItems_keys p]
termination_by structural e => e

end

variable {E}

mutual

theorem evalKeyed_carries : ∀ {p : Pattern} {k : KeyedPattern} {m m' : Machine},
    E.evalKeyed p m = .ok k m' → p.Carries k
  | .wildcard, _, _, _, h => by cases h; rfl
  | .literal _, _, _, _, h => by cases h; rfl
  | .bind _, _, _, _, h => by cases h; rfl
  | .alias _ inner, _, _, _, h => by
    obtain ⟨_, _, hinner, h⟩ := EvalM.ok_of_bind h
    cases h
    exact ⟨_, rfl, evalKeyed_carries hinner⟩
  | .tuple items, _, _, _, h => by
    obtain ⟨_, _, hitems, h⟩ := EvalM.ok_of_bind h
    cases h
    exact ⟨_, rfl, evalKeyedItems_carries hitems⟩
  | .sequence items, _, _, _, h => by
    obtain ⟨_, _, hitems, h⟩ := EvalM.ok_of_bind h
    cases h
    exact ⟨_, rfl, evalKeyedItems_carries hitems⟩
  | .cons front rest back, _, _, _, h => by
    obtain ⟨_, _, hfront, h⟩ := EvalM.ok_of_bind h
    obtain ⟨_, _, hrest, h⟩ := EvalM.ok_of_bind h
    obtain ⟨_, _, hback, h⟩ := EvalM.ok_of_bind h
    cases h
    exact ⟨_, _, _, rfl, evalKeyedItems_carries hfront, evalKeyed_carries hrest,
      evalKeyedItems_carries hback⟩
  | .dict entries, _, _, _, h => by
    obtain ⟨_, _, hentries, h⟩ := EvalM.ok_of_bind h
    cases h
    exact ⟨_, rfl, evalKeyedEntries_carries hentries⟩
  | .guarded inner _, _, _, _, h => by
    obtain ⟨_, _, hinner, h⟩ := EvalM.ok_of_bind h
    cases h
    exact ⟨_, rfl, evalKeyed_carries hinner⟩

theorem evalKeyedItems_carries : ∀ {ps : List Pattern} {ks : List KeyedPattern} {m m' : Machine},
    E.evalKeyedItems ps m = .ok ks m' → Pattern.CarriesItems ps ks
  | [], _, _, _, h => by cases h; rfl
  | _ :: _, _, _, _, h => by
    obtain ⟨_, _, hp, h⟩ := EvalM.ok_of_bind h
    obtain ⟨_, _, hps, h⟩ := EvalM.ok_of_bind h
    cases h
    exact ⟨_, _, rfl, evalKeyed_carries hp, evalKeyedItems_carries hps⟩

theorem evalKeyedEntries_carries : ∀ {es : List (Expr × Pattern)} {es' : List (Value × KeyedPattern)}
    {m m' : Machine}, E.evalKeyedEntries es m = .ok es' m' → Pattern.CarriesEntries es es'
  | [], _, _, _, h => by cases h; rfl
  | _ :: _, _, _, _, h => by
    obtain ⟨_, _, he, h⟩ := EvalM.ok_of_bind h
    obtain ⟨_, _, hrest, h⟩ := EvalM.ok_of_bind h
    cases h
    exact ⟨_, _, rfl, evalKeyedEntry_carries he, evalKeyedEntries_carries hrest⟩

theorem evalKeyedEntry_carries : ∀ {e : Expr × Pattern} {e' : Value × KeyedPattern} {m m' : Machine},
    E.evalKeyedEntry e m = .ok e' m' → Pattern.CarriesEntry e e'
  | (_, _), _, _, _, h => by
    obtain ⟨_, _, -, h⟩ := EvalM.ok_of_bind h
    obtain ⟨_, _, hp, h⟩ := EvalM.ok_of_bind h
    cases h
    exact evalKeyed_carries hp

end

end Engine

/-- What a value stands for at this moment; a promise that has no value yet stands for itself. -/
def Store.resolved (s : Store Handler) (v : Value) : Value :=
  match s.operand? v with
  | some (.ok w) => w
  | _ => v

theorem Store.Holds.eq_map {s : Store Handler} {vs ws : List Value} (h : s.Holds vs ws) :
    ws = vs.map s.resolved := by
  induction h with
  | nil => rfl
  | cons hhead _ ih => rw [List.map_cons, ← ih, resolved, hhead]

/-- The keys of a pattern, as they come from evaluation, line up with the entries in which evaluation in
place would have left them. So do the values they stand for once a gather has all of them. -/
theorem Engine.keys_line_up {E : Engine} {p : Pattern} {m m' : Machine} {keys : List Value}
    (hkeys : E.evalItems p.keys m = .ok keys m') :
    ∃ k : KeyedPattern, E.evalKeyed p m = .ok k m' ∧ p.LinesUp keys k ∧
      ∀ s keys', Store.Holds s keys keys' → p.LinesUp keys' (k.mapKeys s.resolved) := by
  rw [evalItems_keys, map_eq_pure_bind] at hkeys
  obtain ⟨k, m₁, hk, hdone⟩ := EvalM.ok_of_bind hkeys
  cases hdone
  have hcarries := evalKeyed_carries hk
  refine ⟨k, hk, hcarries.linesUp, fun s keys' hholds => ?_⟩
  rw [hholds.eq_map, ← KeyedPattern.keys_mapKeys]
  exact (hcarries.mapKeys s.resolved).linesUp

/-- `[{:a = {:b = x}} | more, {:c = y}]`, with one dictionary inside another and one behind the rest. -/
def Pattern.shelves : Pattern :=
  .cons [.dict [(.literal (.symbol "a"), .dict [(.literal (.symbol "b"), .bind "x")])]] (.bind "more")
    [.dict [(.literal (.symbol "c"), .bind "y")]]

theorem Engine.keys_line_up_shelves :
    let E := engine ⟨10, .immediate, fun _ _ => ⟨.value .unit, [], false⟩⟩ 1
    ∃ k : KeyedPattern, E.evalKeyed Pattern.shelves Machine.empty = .ok k Machine.empty ∧
      Pattern.shelves.LinesUp [.symbol "a", .symbol "b", .symbol "c"] k := by
  intro E
  have hkeys : E.evalItems Pattern.shelves.keys Machine.empty =
      .ok [.symbol "a", .symbol "b", .symbol "c"] Machine.empty := rfl
  obtain ⟨k, hk, hup, -⟩ := keys_line_up hkeys
  exact ⟨k, hk, hup⟩

end Deferral
