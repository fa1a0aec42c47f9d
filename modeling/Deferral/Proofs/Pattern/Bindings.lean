import Mathlib.Data.List.Induction
import Mathlib.Data.List.Nodup
import Deferral.Proofs.Pattern.Guards

/-!
# The bindings of a match

A match that succeeds has been at every name of the pattern, and at each of them it had a part of the
value at hand. `Pattern.completed` lists the names in the order in which a match is done with them, and
`Pattern.sites` adds the parts. The names that the match binds are the first occurrences among those that
the program has not bound, each with the part at that place (`Pattern.matching_wellBound`); the others
have only been compared.

What has been bound by then decides whether the next name binds or compares. So the parts of a match are
described by what they add to whatever has been bound (`Completes`), and one lemma puts two parts
together (`Completes.bind`).
-/

set_option autoImplicit false

namespace Deferral

namespace Pattern

mutual

/-- The names that a pattern binds or compares, in the order in which a match is done with them. -/
def completed : Pattern → List String
  | .wildcard => []
  | .literal _ => []
  | .bind name => [name]
  | .alias name inner => completed inner ++ [name]
  | .tuple items => completedItems items
  | .sequence items => completedItems items
  | .cons front rest back => completedItems front ++ (completed rest ++ completedItems back)
  | .dict entries => completedEntries entries
  | .guarded inner _ => completed inner
termination_by structural p => p

def completedItems : List Pattern → List String
  | [] => []
  | p :: rest => completed p ++ completedItems rest
termination_by structural ps => ps

def completedEntries : List (Expr × Pattern) → List String
  | [] => []
  | e :: rest => completedEntry e ++ completedEntries rest
termination_by structural es => es

def completedEntry : Expr × Pattern → List String
  | (_, p) => completed p
termination_by structural e => e

end

section

variable (sight : Sight)

mutual

/-- The names of a pattern in that order, each with the part of the value that is in its place. The keys
of the pattern are the first of the given ones. -/
def sites : Pattern → List Value → Value → List (String × Value)
  | .wildcard, _, _ => []
  | .literal _, _, _ => []
  | .bind name, _, v => [(name, v)]
  | .alias name inner, keys, v => sites inner keys v ++ [(name, v)]
  | .tuple items, keys, v =>
    match sight.settle v with
    | .ok (.tuple vs) => sitesOfItems items keys vs
    | _ => []
  | .sequence items, keys, v =>
    match sight.settle v with
    | .ok (.seq s) => sitesOfItems items keys s.toList
    | _ => []
  | .cons front rest back, keys, v =>
    match sight.settle v with
    | .ok (.seq s) =>
      let middle := s.length - back.length
      let keys' := keys.drop (keysOfItems front).length
      sitesOfItems front keys (s.toList.take front.length) ++
        (sites rest keys' (.seqOf ((s.toList.take middle).drop front.length)) ++
          sitesOfItems back (keys'.drop rest.keys.length) (s.toList.drop middle))
    | _ => []
  | .dict entries, keys, v =>
    match sight.settle v with
    | .ok (.dict found) => sitesOfEntries entries keys found
    | _ => []
  | .guarded inner _, keys, v => sites inner keys v
termination_by structural p => p

def sitesOfItems : List Pattern → List Value → List Value → List (String × Value)
  | p :: ps, keys, v :: vs => sites p keys v ++ sitesOfItems ps (keys.drop p.keys.length) vs
  | _, _, _ => []
termination_by structural ps => ps

def sitesOfEntries : List (Expr × Pattern) → List Value → Entries → List (String × Value)
  | [], _, _ => []
  | e :: rest, keys, found =>
    sitesOfEntry e keys found ++ sitesOfEntries rest (keys.drop (keysOfEntry e).length) found
termination_by structural es => es

def sitesOfEntry : Expr × Pattern → List Value → Entries → List (String × Value)
  | (_, p), keys, found =>
    match keys with
    | [] => []
    | key :: keys => ((Entries.get? found key).map (sites p keys)).getD []
termination_by structural e => e

end

end

end Pattern

/-! ## What is added -/

namespace Sight

variable (sight : Sight)

/-- The bindings after a place of a name: a name that is bound already stays as it is. -/
def add (bindings : List (String × Value)) (site : String × Value) : List (String × Value) :=
  if ((bindings.lookup site.1).or (sight.bound? site.1)).isSome then bindings else site :: bindings

/-- The bindings after all places. -/
def adds (sites bindings : List (String × Value)) : List (String × Value) :=
  sites.foldl sight.add bindings

/-- A name that the program has not bound. -/
def unbound (name : String) : Bool := (sight.bound? name).isNone

/-- The first place of each name that the program has not bound. -/
structure Firsts (sites bindings : List (String × Value)) : Prop where
  names : bindings.reverse.map Prod.fst = ((sites.map Prod.fst).filter sight.unbound).eraseDups
  distinct : (bindings.map Prod.fst).Nodup
  first : ∀ b ∈ bindings, sites.lookup b.1 = some b.2

variable {sight} {sites bindings : List (String × Value)}

theorem Firsts.mem_names (h : sight.Firsts sites bindings) (name : String) :
    name ∈ bindings.map Prod.fst ↔ name ∈ sites.map Prod.fst ∧ sight.bound? name = none := by
  rw [← List.mem_reverse, ← List.map_reverse, h.names, List.mem_eraseDups, List.mem_filter, unbound,
    Option.isNone_iff_eq_none]

theorem lookup_isSome {name : String} :
    (bindings.lookup name).isSome = true ↔ name ∈ bindings.map Prod.fst := by
  induction bindings with
  | nil => simp
  | cons b rest ih =>
    rw [List.lookup_cons, List.map_cons, List.mem_cons]
    cases heq : name == b.1 with
    | true => simp [beq_iff_eq.1 heq]
    | false => simp [ih, beq_eq_false_iff_ne.1 heq]

theorem eraseDups_concat (names : List String) (name : String) :
    (names ++ [name]).eraseDups =
      if name ∈ names then names.eraseDups else names.eraseDups ++ [name] := by
  rw [List.eraseDups_append]
  split
  · simp [List.removeAll, *]
  · rw [List.removeAll, List.filter_cons_of_pos (by simpa)]
    rfl

/-- A name is bound at a place, or was bound before, or is compared with what the program has bound. -/
theorem add_eq (h : sight.Firsts sites bindings) (name : String) (v : Value) :
    sight.add bindings (name, v) =
      if name ∈ sites.map Prod.fst ∨ sight.unbound name = false then bindings
      else (name, v) :: bindings := by
  have hbound : ((bindings.lookup name).or (sight.bound? name)).isSome = true ↔
      name ∈ sites.map Prod.fst ∨ sight.unbound name = false := by
    rw [Option.isSome_or, Bool.or_eq_true, lookup_isSome, h.mem_names, unbound]
    cases sight.bound? name <;> simp
  rw [add, if_congr hbound rfl rfl]

/-- One more place. -/
theorem Firsts.add (h : sight.Firsts sites bindings) (site : String × Value) :
    sight.Firsts (sites ++ [site]) (sight.add bindings site) := by
  obtain ⟨name, v⟩ := site
  have hkept : ∀ b ∈ bindings, (sites ++ [(name, v)]).lookup b.1 = some b.2 := by
    intro b hb
    rw [List.lookup_append, h.first b hb]
    rfl
  have hnames : ((sites ++ [(name, v)]).map Prod.fst).filter sight.unbound =
      (sites.map Prod.fst).filter sight.unbound ++ [name].filter sight.unbound := by
    rw [List.map_append, List.filter_append]
    rfl
  rw [add_eq h]
  split
  · rename_i hbound
    refine ⟨?_, h.distinct, hkept⟩
    rw [hnames, h.names]
    cases hnew : sight.unbound name with
    | false => simp [hnew]
    | true =>
      have hmem : name ∈ (sites.map Prod.fst).filter sight.unbound := by
        simpa [hnew] using hbound
      rw [List.filter_cons_of_pos hnew, List.filter_nil, eraseDups_concat, if_pos hmem]
  · rename_i hbound
    obtain ⟨hfirst, hnew⟩ := not_or.1 hbound
    rw [Bool.not_eq_false] at hnew
    have hmem : name ∉ (sites.map Prod.fst).filter sight.unbound := fun hmem =>
      hfirst (List.mem_filter.1 hmem).1
    have hfree : name ∉ bindings.map Prod.fst := fun hmem => hfirst ((h.mem_names name).1 hmem).1
    refine ⟨?_, List.nodup_cons.2 ⟨hfree, h.distinct⟩, List.forall_mem_cons.2 ⟨?_, hkept⟩⟩
    · rw [hnames, List.filter_cons_of_pos hnew, List.filter_nil, eraseDups_concat, if_neg hmem,
        ← h.names, List.reverse_cons, List.map_append]
      rfl
    · rw [List.lookup_append,
        Option.not_isSome_iff_eq_none.1 fun hsome => hfirst (lookup_isSome.1 hsome)]
      simp

theorem firsts_adds (sites : List (String × Value)) : sight.Firsts sites (sight.adds sites []) := by
  induction sites using List.reverseRecOn with
  | nil => exact ⟨rfl, List.nodup_nil, nofun⟩
  | append_singleton sites site ih =>
    rw [adds, List.foldl_append]
    exact ih.add site

end Sight

/-! ## What a match goes through -/

/-- A part of a match that ends well has been at these places, has used so many keys, and has bound what
the places add. -/
structure Sight.Done (sight : Sight) (names : List String) (sites : List (String × Value)) (used : Nat)
    (before after : Progress) : Prop where
  keys : after.keys = before.keys.drop used
  bindings : after.bindings = sight.adds sites before.bindings
  names : sites.map Prod.fst = names

/-- If a part of a match ends well, then in this way. -/
def Sight.Completes (sight : Sight) (names : List String) (sites : List (String × Value)) (used : Nat)
    (before : Progress) (r : Except Stop Progress) : Prop :=
  ∀ after, r = .ok after → sight.Done names sites used before after

namespace Sight.Completes

variable {sight : Sight} {names names' : List String} {sites sites' : List (String × Value)}
  {used used' : Nat} {before : Progress} {r : Except Stop Progress}

theorem stopped (stop : Stop) : sight.Completes names sites used before (.error stop) := nofun

theorem ok {after : Progress} (hkeys : after.keys = before.keys)
    (hbindings : after.bindings = before.bindings) :
    sight.Completes [] [] 0 before (.ok after) := by
  intro after' h
  obtain rfl := Except.ok.inj h
  exact ⟨hkeys, hbindings, rfl⟩

theorem require (holds : Bool) : sight.Completes [] [] 0 before (Sight.require holds before) := by
  cases holds with
  | true => exact ok rfl rfl
  | false => exact stopped _

/-- One part of a match after the other. -/
theorem bind {f : Progress → Except Stop Progress} (hr : sight.Completes names sites used before r)
    (hf : ∀ middle : Progress, middle.keys = before.keys.drop used →
      sight.Completes names' sites' used' middle (f middle)) :
    sight.Completes (names ++ names') (sites ++ sites') (used + used') before (r >>= f) := by
  cases r with
  | error stop => exact stopped stop
  | ok middle =>
    intro after h
    have hfirst := hr middle rfl
    have hthen := hf middle hfirst.keys after h
    refine ⟨?_, ?_, ?_⟩
    · rw [hthen.keys, hfirst.keys, List.drop_drop]
    · rw [hthen.bindings, hfirst.bindings, adds, adds, adds, List.foldl_append]
    · rw [List.map_append, hfirst.names, hthen.names]

theorem look {v : Value} {f : Value → Except Stop Progress}
    (hf : ∀ w, sight.settle v = .ok w → sight.Completes names sites used before (f w)) :
    sight.Completes names sites used before (sight.settle v >>= f) := by
  cases hv : sight.settle v with
  | error stop => exact stopped stop
  | ok w => exact hf w hv

theorem bindName (name : String) (v : Value) :
    sight.Completes [name] [(name, v)] 0 before (sight.bind name v before) := by
  intro after h
  have hadds : sight.adds [(name, v)] before.bindings = sight.add before.bindings (name, v) := rfl
  unfold Sight.bind at h
  cases hbound : (before.bindings.lookup name).or (sight.bound? name) with
  | none =>
    rw [hbound] at h
    obtain rfl := Except.ok.inj h
    refine ⟨rfl, ?_, rfl⟩
    rw [hadds, add, hbound]
    rfl
  | some bound =>
    rw [hbound] at h
    have hsame : sight.Completes [] [] 0 before (do
        let a ← sight.settle bound
        let b ← sight.settle v
        Sight.require (a == b) before) := look fun _ _ => look fun _ _ => require _
    have hdone := hsame after h
    refine ⟨hdone.keys, hdone.bindings.trans ?_, rfl⟩
    rw [hadds, add, hbound]
    rfl

end Sight.Completes

namespace Pattern

open Sight (Completes)

mutual

theorem completes_visit (sight : Sight) : ∀ (p : Pattern) (v : Value) (progress : Progress),
    sight.Completes p.completed (p.sites sight progress.keys v) p.keys.length progress
      (p.visit sight v progress)
  | .wildcard, _, _ => .ok rfl rfl
  | .bind name, v, _ => .bindName name v
  | .alias name inner, v, progress =>
    (completes_visit sight inner v progress).bind fun _ _ => .bindName name v
  | .literal _, _, _ => .look fun _ _ => .require _
  | .tuple items, v, progress => by
    refine .look fun w hw => ?_
    rw [sites, hw]
    cases w with
    | tuple vs =>
      dsimp only
      split
      · rename_i hlength
        exact completes_visitItems sight items vs progress hlength
      · exact .stopped _
    | _ => exact .stopped _
  | .sequence items, v, progress => by
    refine .look fun w hw => ?_
    rw [sites, hw]
    cases w with
    | seq s =>
      dsimp only
      split
      · rename_i hlength
        exact completes_visitItems sight items s.toList progress (s.length_toList.trans hlength)
      · exact .stopped _
    | _ => exact .stopped _
  | .cons front rest back, v, progress => by
    rw [visit]
    cases rest.badRest? with
    | some kind => exact .stopped _
    | none =>
      refine .look fun w hw => ?_
      rw [sites, hw]
      cases w with
      | seq s =>
        dsimp only
        split
        · rename_i hlength
          have htotal := s.length_toList
          have hused : (Pattern.cons front rest back).keys.length =
              (keysOfItems front).length + (rest.keys.length + (keysOfItems back).length) := by
            rw [Pattern.keys, List.length_append, List.length_append, Nat.add_assoc]
          rw [hused]
          refine (completes_visitItems sight front _ progress (List.length_take_of_le (by omega))).bind
            fun middle hmiddle => ?_
          rw [← hmiddle]
          refine (completes_visit sight rest _ middle).bind fun last hlast => ?_
          rw [← hlast]
          exact completes_visitItems sight back _ last (by rw [List.length_drop]; omega)
        · exact .stopped _
      | _ => exact .stopped _
  | .dict entries, v, progress => by
    refine .look fun w hw => ?_
    rw [sites, hw]
    cases w with
    | dict found =>
      dsimp only
      split
      · rename_i hempty
        obtain rfl := List.isEmpty_iff.1 hempty
        exact .require _
      · exact completes_visitEntries sight entries found progress
    | _ => exact .stopped _
  | .guarded inner guard, v, progress => by
    intro after h
    have hnoted : ∀ middle : Progress, sight.Completes [] [] 0 middle
        (.ok { middle with guards := guard :: middle.guards }) := fun _ => .ok rfl rfl
    have hguarded := (completes_visit sight inner v progress).bind fun middle _ => hnoted middle
    rw [List.append_nil, List.append_nil] at hguarded
    exact hguarded after h
termination_by structural p => p

theorem completes_visitItems (sight : Sight) : ∀ (ps : List Pattern) (vs : List Value)
    (progress : Progress), vs.length = ps.length →
      sight.Completes (completedItems ps) (sitesOfItems sight ps progress.keys vs)
        (keysOfItems ps).length progress (visitItems sight ps vs progress)
  | [], [], _, _ => .ok rfl rfl
  | p :: ps, v :: vs, progress, hlength => by
    rw [keysOfItems, List.length_append]
    refine (completes_visit sight p v progress).bind fun middle hmiddle => ?_
    rw [← hmiddle]
    exact completes_visitItems sight ps vs middle (Nat.succ.inj hlength)
termination_by structural ps => ps

theorem completes_visitEntries (sight : Sight) : ∀ (es : List (Expr × Pattern)) (found : Entries)
    (progress : Progress),
      sight.Completes (completedEntries es) (sitesOfEntries sight es progress.keys found)
        (keysOfEntries es).length progress (visitEntries sight es found progress)
  | [], _, _ => .ok rfl rfl
  | e :: rest, found, progress => by
    rw [keysOfEntries, List.length_append]
    refine (completes_visitEntry sight e found progress).bind fun middle hmiddle => ?_
    rw [← hmiddle]
    exact completes_visitEntries sight rest found middle
termination_by structural es => es

theorem completes_visitEntry (sight : Sight) : ∀ (e : Expr × Pattern) (found : Entries)
    (progress : Progress),
      sight.Completes (completedEntry e) (sitesOfEntry sight e progress.keys found)
        (keysOfEntry e).length progress (visitEntry sight e found progress)
  | (e, p), found, ⟨keys, bindings, guards⟩ => by
    rw [visitEntry]
    cases keys with
    | nil => exact .stopped _
    | cons key keys =>
      dsimp only
      cases hfound : Entries.get? found key with
      | none => exact .stopped _
      | some v =>
        intro after h
        have hdone := completes_visit sight p v ⟨keys, bindings, guards⟩ after h
        have hsites : sitesOfEntry sight (e, p) (key :: keys) found = p.sites sight keys v := by
          rw [sitesOfEntry, hfound]
          rfl
        exact ⟨hdone.keys, hsites ▸ hdone.bindings, hsites ▸ hdone.names⟩
termination_by structural e => e

end

end Pattern

/-! ## Names in scope -/

namespace Environment

variable {env : Environment} {bindings : List (String × Value)} {name : String}

theorem binding?_define (env : Environment) (name' : String) (v : Value) :
    (env.define name' v).binding? name =
      if name' = name then some ⟨name', v, false⟩ else env.binding? name := by
  rw [binding?, define, List.find?_cons]
  split <;> simp_all [binding?]

/-- What has not been bound is found as before. -/
theorem binding?_defineAll_of_notMem (h : name ∉ bindings.map Prod.fst) :
    (env.defineAll bindings).binding? name = env.binding? name := by
  induction bindings generalizing env with
  | nil => rfl
  | cons b rest ih =>
    rw [List.map_cons, List.mem_cons, not_or] at h
    have hrest : ((env.define b.1 b.2).defineAll rest).binding? name =
        (env.define b.1 b.2).binding? name := ih h.2
    rw [binding?_define, if_neg (Ne.symm h.1)] at hrest
    exact hrest

/-- What has been bound is found, and it is the program that has bound it. -/
theorem binding?_defineAll_of_mem {v : Value} (hdistinct : (bindings.map Prod.fst).Nodup)
    (h : (name, v) ∈ bindings) :
    (env.defineAll bindings).binding? name = some ⟨name, v, false⟩ := by
  induction bindings generalizing env with
  | nil => cases h
  | cons b rest ih =>
    rw [List.map_cons, List.nodup_cons] at hdistinct
    rcases List.mem_cons.1 h with rfl | h
    · have hrest : ((env.define name v).defineAll rest).binding? name =
          (env.define name v).binding? name := binding?_defineAll_of_notMem hdistinct.1
      rw [binding?_define, if_pos rfl] at hrest
      exact hrest
    · exact ih hdistinct.2 h

end Environment

/-! ## Whole matches -/

namespace Pattern

/-- The bindings and guards of a match, made with an environment in scope, are those of the pattern, and
the bindings can be brought into that scope. -/
structure WellBound (p : Pattern) (outcome? : PromiseId → Option Outcome) (env : Environment) (v : Value)
    (keys : List Value) (found : Match) : Prop where
  /-- The names are those the program has not bound, each once, in the order of their completion. -/
  names : found.bindings.map Prod.fst =
    (p.completed.filter fun name => (env.getUser? name).isNone).eraseDups
  distinct : (found.bindings.map Prod.fst).Nodup
  exact : ∀ name, name ∈ found.bindings.map Prod.fst ↔
    name ∈ p.completed ∧ env.getUser? name = none
  /-- A name is bound to the part of the value that is where the name is first completed. -/
  matched : ∀ name w, (name, w) ∈ found.bindings →
    (p.sites ⟨outcome?, env.getUser?⟩ keys v).lookup name = some w
  guards : found.guards = p.guards
  /-- Once they are in scope, each name has its value, as one that the program has bound. -/
  inScope : ∀ name w, (name, w) ∈ found.bindings →
    (env.defineAll found.bindings).get? name = some w ∧
      (env.defineAll found.bindings).getUser? name = some w
  /-- Every other name is as it was. -/
  others : ∀ name, name ∉ found.bindings.map Prod.fst →
    (env.defineAll found.bindings).binding? name = env.binding? name

/-- The bindings of a match are well formed, whatever the value, the scope and the keys. -/
theorem matching_wellBound {outcome? : PromiseId → Option Outcome} {env : Environment} {p : Pattern}
    {v : Value} {keys : List Value} {found : Match}
    (h : p.matching ⟨outcome?, env.getUser?⟩ v keys = .ok (.matched found)) :
    p.WellBound outcome? env v keys found := by
  let sight : Sight := ⟨outcome?, env.getUser?⟩
  have hguards := guards_of_matched h
  unfold matching at h
  split at h
  case h_1 progress hvisit =>
    obtain rfl := Matching.matched.inj (Except.ok.inj h)
    have hdone := completes_visit sight p v ⟨keys, [], []⟩ progress hvisit
    have hfirsts : sight.Firsts (p.sites sight keys v) progress.bindings :=
      hdone.bindings ▸ Sight.firsts_adds _
    have hsites : (p.sites sight keys v).map Prod.fst = p.completed := hdone.names
    have hnames : progress.bindings.reverse.map Prod.fst =
        (p.completed.filter sight.unbound).eraseDups := by
      rw [hfirsts.names, hsites]
    have hdistinct : (progress.bindings.reverse.map Prod.fst).Nodup := by
      rw [List.map_reverse]
      exact List.nodup_reverse.2 hfirsts.distinct
    refine ⟨hnames, hdistinct, fun name => ?_, fun name w hw => ?_, hguards, fun name w hw => ?_,
      fun name hname => Environment.binding?_defineAll_of_notMem hname⟩
    · rw [List.map_reverse, List.mem_reverse, hfirsts.mem_names, hsites]
    · exact hfirsts.first (name, w) (List.mem_reverse.1 hw)
    · have hfound : (env.defineAll progress.bindings.reverse).binding? name = some ⟨name, w, false⟩ :=
        Environment.binding?_defineAll_of_mem hdistinct hw
      exact ⟨by rw [Environment.get?, hfound]; rfl, by rw [Environment.getUser?, hfound]; rfl⟩
  all_goals cases h

/-- `([x | rest] as whole, x)`: the second `x` is only compared. -/
def spread : Pattern :=
  .tuple [.alias "whole" (.cons [.bind "x"] (.bind "rest") []), .bind "x"]

/-- A builtin `x` does not keep the pattern from binding the name, and a promise is looked through where
it is compared. -/
theorem matching_wellBound_spread :
    let env := Environment.empty.defineBuiltin "x" .unit
    let outcome? : PromiseId → Option Outcome := fun _ => some (.ok (.int 1))
    spread.WellBound outcome? env (.tuple [.seqOf [.int 1, .int 2], .promise ⟨0⟩]) []
      ⟨[("x", .int 1), ("rest", .seqOf [.int 2]), ("whole", .seqOf [.int 1, .int 2])], []⟩ :=
  matching_wellBound rfl

end Pattern

end Deferral
