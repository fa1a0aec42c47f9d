import Deferral.Proofs.Transparency.Fragment

/-!
# The guards of a pattern

Which guards are left to hold after a match is a matter of the pattern alone: all of those inside it,
in the order in which they are written (`Pattern.guards_of_matched`). An error with which a match ends
is that of a promise it has looked into, or says what is wrong with the pattern
(`Pattern.error_of_matching`).
-/

set_option autoImplicit false

namespace Deferral.Pattern

mutual

/-- The guards inside a pattern, in the order in which they are written. -/
def guards : Pattern → List Expr
  | .wildcard => []
  | .literal _ => []
  | .bind _ => []
  | .alias _ inner => inner.guards
  | .tuple items => guardsOfItems items
  | .sequence items => guardsOfItems items
  | .cons front rest back => guardsOfItems front ++ rest.guards ++ guardsOfItems back
  | .dict entries => guardsOfEntries entries
  | .guarded inner guard => inner.guards ++ [guard]
termination_by structural p => p

def guardsOfItems : List Pattern → List Expr
  | [] => []
  | p :: rest => p.guards ++ guardsOfItems rest
termination_by structural ps => ps

def guardsOfEntries : List (Expr × Pattern) → List Expr
  | [] => []
  | e :: rest => guardsOfEntry e ++ guardsOfEntries rest
termination_by structural es => es

def guardsOfEntry : Expr × Pattern → List Expr
  | (_, p) => p.guards
termination_by structural e => e

end

mutual

theorem guards_subset_parts : ∀ p : Pattern, ∀ e ∈ p.guards, e ∈ p.parts
  | .wildcard, _, h => h
  | .literal _, _, h => h
  | .bind _, _, h => h
  | .alias _ inner, e, h => guards_subset_parts inner e h
  | .tuple items, e, h => guardsOfItems_subset_parts items e h
  | .sequence items, e, h => guardsOfItems_subset_parts items e h
  | .cons front rest back, e, h => by
    rw [guards, List.mem_append, List.mem_append] at h
    rw [parts, List.mem_append, List.mem_append]
    rcases h with (h | h) | h
    · exact .inl (.inl (guardsOfItems_subset_parts front e h))
    · exact .inl (.inr (guards_subset_parts rest e h))
    · exact .inr (guardsOfItems_subset_parts back e h)
  | .dict entries, e, h => guardsOfEntries_subset_parts entries e h
  | .guarded inner _, e, h => by
    rw [guards, List.mem_append] at h
    rw [parts, List.mem_append]
    exact h.imp_left (guards_subset_parts inner e)
termination_by structural p => p

theorem guardsOfItems_subset_parts :
    ∀ ps : List Pattern, ∀ e ∈ guardsOfItems ps, e ∈ partsOfItems ps
  | [], _, h => h
  | p :: rest, e, h => by
    rw [guardsOfItems, List.mem_append] at h
    rw [partsOfItems, List.mem_append]
    exact h.imp (guards_subset_parts p e) (guardsOfItems_subset_parts rest e)
termination_by structural ps => ps

theorem guardsOfEntries_subset_parts :
    ∀ es : List (Expr × Pattern), ∀ e ∈ guardsOfEntries es, e ∈ partsOfEntries es
  | [], _, h => h
  | x :: rest, e, h => by
    rw [guardsOfEntries, List.mem_append] at h
    rw [partsOfEntries, List.mem_append]
    exact h.imp (guardsOfEntry_subset_parts x e) (guardsOfEntries_subset_parts rest e)
termination_by structural es => es

theorem guardsOfEntry_subset_parts :
    ∀ x : Expr × Pattern, ∀ e ∈ guardsOfEntry x, e ∈ partsOfEntry x
  | (_, p), e, h => List.mem_cons_of_mem _ (guards_subset_parts p e h)
termination_by structural x => x

end

/-! ## What a match hands on -/

/-- An error is that of a promise, or blames the pattern. -/
def Accounted (sight : Sight) (e : Error) : Prop :=
  (∃ p, sight.outcome? p = some (.error e)) ∨ ∃ fault, e = .resolution fault

/-- A part of a match adds these guards, unless it stops; and if it fails, then with an error that is
accounted for. -/
structure Yields (sight : Sight) (gs : List Expr) (progress : Progress) (r : Except Stop Progress) :
    Prop where
  guards : ∀ progress', r = .ok progress' → progress'.guards = gs.reverse ++ progress.guards
  error : ∀ e, r = .error (.fail e) → Accounted sight e

namespace Yields

variable {sight : Sight} {gs gs' : List Expr} {progress : Progress} {r : Except Stop Progress}

theorem ok : Yields sight [] progress (.ok progress) where
  guards _ h := by
    obtain rfl := Except.ok.inj h
    rfl
  error _ h := nomatch h

theorem mismatch : Yields sight gs progress (.error .mismatch) := ⟨nofun, nofun⟩

theorem fault (f : Fault) : Yields sight gs progress (.error (.fail (.resolution f))) where
  guards _ h := nomatch h
  error e h := by
    obtain rfl := Stop.fail.inj (Except.error.inj h)
    exact .inr ⟨f, rfl⟩

theorem require (holds : Bool) : Yields sight [] progress (Sight.require holds progress) := by
  cases holds with
  | true => exact ok
  | false => exact mismatch

theorem bind {f : Progress → Except Stop Progress} (hr : Yields sight gs progress r)
    (hf : ∀ progress, Yields sight gs' progress (f progress)) :
    Yields sight (gs ++ gs') progress (r >>= f) := by
  cases r with
  | error s => exact ⟨nofun, fun e h => hr.error e (congrArg _ (Except.error.inj h))⟩
  | ok middle =>
    refine ⟨fun progress' h => ?_, (hf middle).error⟩
    rw [(hf middle).guards progress' h, hr.guards middle rfl, List.reverse_append, List.append_assoc]

/-- A look at a promise adds nothing. -/
theorem look {v : Value} {f : Value → Except Stop Progress}
    (hf : ∀ v, Yields sight gs progress (f v)) :
    Yields sight gs progress (sight.settle v >>= f) := by
  cases v with
  | promise p =>
    cases ho : sight.outcome? p with
    | none =>
      have hstop : (sight.settle (.promise p) >>= f) = .error (.wait p) := by
        simp only [Sight.settle, ho]
        rfl
      rw [hstop]
      exact ⟨nofun, nofun⟩
    | some o =>
      cases o with
      | ok v =>
        have hgo : (sight.settle (.promise p) >>= f) = f v := by
          simp only [Sight.settle, ho]
          rfl
        rw [hgo]
        exact hf v
      | error e =>
        have hstop : (sight.settle (.promise p) >>= f) = .error (.fail e) := by
          simp only [Sight.settle, ho]
          rfl
        rw [hstop]
        refine ⟨nofun, fun e' h => ?_⟩
        obtain rfl := Stop.fail.inj (Except.error.inj h)
        exact .inl ⟨p, ho⟩
  | _ => exact hf _

theorem bindName (name : String) (v : Value) :
    Yields sight [] progress (sight.bind name v progress) := by
  unfold Sight.bind
  split
  · exact look fun _ => look fun _ => require _
  · refine ⟨fun progress' h => ?_, nofun⟩
    obtain rfl := Except.ok.inj h
    rfl

end Yields

mutual

theorem yields_visit (sight : Sight) : ∀ (p : Pattern) (v : Value) (progress : Progress),
    Yields sight p.guards progress (p.visit sight v progress)
  | .wildcard, _, _ => .ok
  | .bind name, v, _ => .bindName name v
  | .alias name inner, v, progress => by
    have hname := (yields_visit sight inner v progress).bind fun _ => .bindName name v
    rwa [List.append_nil] at hname
  | .literal _, _, _ => .look fun _ => .require _
  | .tuple items, _, progress => by
    refine .look fun v => ?_
    cases v with
    | tuple values =>
      dsimp only
      split
      · rename_i hlength
        exact yields_visitItems sight items values progress hlength
      · exact .mismatch
    | _ => exact .mismatch
  | .sequence items, _, progress => by
    refine .look fun v => ?_
    cases v with
    | seq s =>
      dsimp only
      split
      · rename_i hlength
        exact yields_visitItems sight items s.toList progress (s.length_toList.trans hlength)
      · exact .mismatch
    | _ => exact .mismatch
  | .cons front rest back, _, progress => by
    simp only [visit]
    cases rest.badRest? with
    | some kind => exact .fault _
    | none =>
      refine .look fun v => ?_
      cases v with
      | seq s =>
        dsimp only
        split
        · rename_i hlength
          have hsize := s.length_toList
          have hfront : (s.toList.take front.length).length = front.length := by
            rw [List.length_take]
            omega
          have hback : (s.toList.drop (s.length - back.length)).length = back.length := by
            rw [List.length_drop]
            omega
          rw [guards, List.append_assoc]
          exact (yields_visitItems sight front _ progress hfront).bind fun progress =>
            (yields_visit sight rest _ progress).bind fun progress =>
              yields_visitItems sight back _ progress hback
        · exact .mismatch
      | _ => exact .mismatch
  | .dict entries, _, progress => by
    refine .look fun v => ?_
    cases v with
    | dict found =>
      dsimp only
      split
      · rename_i hempty
        obtain rfl := List.isEmpty_iff.1 hempty
        exact .require _
      · exact yields_visitEntries sight entries found progress
    | _ => exact .mismatch
  | .guarded inner guard, v, progress => by
    refine (yields_visit sight inner v progress).bind fun progress => ⟨fun progress' h => ?_, nofun⟩
    obtain rfl := Except.ok.inj h
    rfl
termination_by structural p => p

theorem yields_visitItems (sight : Sight) : ∀ (ps : List Pattern) (vs : List Value)
    (progress : Progress), vs.length = ps.length →
      Yields sight (guardsOfItems ps) progress (visitItems sight ps vs progress)
  | [], [], _, _ => .ok
  | p :: ps, v :: vs, progress, hlength =>
    (yields_visit sight p v progress).bind fun progress =>
      yields_visitItems sight ps vs progress (Nat.succ.inj hlength)
termination_by structural ps => ps

theorem yields_visitEntries (sight : Sight) : ∀ (es : List (Expr × Pattern)) (found : Entries)
    (progress : Progress),
    Yields sight (guardsOfEntries es) progress (visitEntries sight es found progress)
  | [], _, _ => .ok
  | e :: es, found, progress =>
    (yields_visitEntry sight e found progress).bind fun progress =>
      yields_visitEntries sight es found progress
termination_by structural es => es

theorem yields_visitEntry (sight : Sight) : ∀ (e : Expr × Pattern) (found : Entries)
    (progress : Progress),
    Yields sight (guardsOfEntry e) progress (visitEntry sight e found progress)
  | (_, p), found, progress => by
    simp only [visitEntry]
    split
    · exact .fault _
    · rename_i key keys _
      split
      · exact .mismatch
      · rename_i v _
        have hvisit := yields_visit sight p v { progress with keys }
        exact ⟨hvisit.guards, hvisit.error⟩
termination_by structural e => e

end

variable {sight : Sight} {p : Pattern} {v : Value} {keys : List Value}

/-- The guards that are left after a match are those of the pattern, in order. -/
theorem guards_of_matched {found : Match} (h : p.matching sight v keys = .ok (.matched found)) :
    found.guards = p.guards := by
  unfold matching at h
  split at h
  · rename_i progress hvisit
    obtain rfl := Matching.matched.inj (Except.ok.inj h)
    have hguards := (yields_visit sight p v ⟨keys, [], []⟩).guards progress hvisit
    simp [hguards]
  all_goals cases h

/-- A match fails with the error of a promise, or because the pattern is wrong in itself. -/
theorem error_of_matching {e : Error} (h : p.matching sight v keys = .error e) :
    Accounted sight e := by
  unfold matching at h
  split at h
  · cases h
  · cases h
  · cases h
  · rename_i e' hvisit
    obtain rfl := Except.error.inj h
    exact (yields_visit sight p v ⟨keys, [], []⟩).error e' hvisit

end Deferral.Pattern
