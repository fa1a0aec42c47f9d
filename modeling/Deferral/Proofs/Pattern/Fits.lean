import Mathlib.Data.List.Nodup
import Mathlib.Data.List.Pairwise
import Deferral.Pattern.Match
import Deferral.Proofs.Value.Resolve

/-!
# What a match decides

`Pattern.Fits rho p keys v` says, without any order of events, when an assignment of values to names
makes a pattern fit a value. Names may be repeated, and names that the program has bound may occur; then
it asks for equal values. On promise-free values matching decides whether there is such an assignment,
and the bindings it gives are all that there is to know about them: the assignments that fit are exactly
the ones that agree with the bindings (`Pattern.matching_decides`).

One step of a match narrows the assignments that are left by what that step asks for. `Decides` says
this of a part of a match, and parts compose (`Decides.bind`), so the induction over patterns only has
to say what each form of pattern asks for.
-/

set_option autoImplicit false

namespace Deferral

/-! ## Fitting -/

namespace Pattern

section

variable (rho : String → Value)

mutual

/-- The assignment makes the pattern fit the value, where the keys of the pattern are the first of the
given ones. -/
def Fits : Pattern → List Value → Value → Prop
  | .wildcard, _, _ => True
  | .literal expected, _, v => (v == expected) = true
  | .bind name, _, v => (rho name == v) = true
  | .alias name inner, keys, v => Fits inner keys v ∧ (rho name == v) = true
  | .tuple items, keys, v => ∃ vs, v = .tuple vs ∧ FitsItems items keys vs
  | .sequence items, keys, v => ∃ s, v = .seq s ∧ FitsItems items keys s.toList
  | .cons front rest back, keys, v => ∃ s fs middle bs, v = .seq s ∧
      s.toList = fs ++ middle ++ bs ∧ fs.length = front.length ∧ bs.length = back.length ∧
      FitsItems front keys fs ∧
      Fits rest (keys.drop (keysOfItems front).length) (.seqOf middle) ∧
      FitsItems back ((keys.drop (keysOfItems front).length).drop rest.keys.length) bs
  | .dict entries, keys, v => ∃ found, v = .dict found ∧ (entries = [] → found = []) ∧
      FitsEntries entries keys found
  | .guarded inner _, keys, v => Fits inner keys v
termination_by structural p => p

/-- Place by place; there are as many values as patterns. -/
def FitsItems : List Pattern → List Value → List Value → Prop
  | [], _, vs => vs = []
  | p :: ps, keys, vs => ∃ w ws, vs = w :: ws ∧ Fits p keys w ∧
      FitsItems ps (keys.drop p.keys.length) ws
termination_by structural ps => ps

def FitsEntries : List (Expr × Pattern) → List Value → Entries → Prop
  | [], _, _ => True
  | e :: rest, keys, found => FitsEntry e keys found ∧
      FitsEntries rest (keys.drop (keysOfEntry e).length) found
termination_by structural es => es

/-- The dictionary has the key of the entry, with a value that fits. -/
def FitsEntry : Expr × Pattern → List Value → Entries → Prop
  | (_, p), keys, found => ∃ key keys' e, keys = key :: keys' ∧ e ∈ found ∧ (e.1 == key) = true ∧
      Fits p keys' e.2
termination_by structural e => e

end

end

mutual

/-- The pattern and all patterns inside it. -/
def within : Pattern → List Pattern
  | .alias name inner => .alias name inner :: within inner
  | .tuple items => .tuple items :: withinItems items
  | .sequence items => .sequence items :: withinItems items
  | .cons front rest back =>
    .cons front rest back :: (withinItems front ++ (within rest ++ withinItems back))
  | .dict entries => .dict entries :: withinEntries entries
  | .guarded inner guard => .guarded inner guard :: within inner
  | p => [p]
termination_by structural p => p

def withinItems : List Pattern → List Pattern
  | [] => []
  | p :: ps => within p ++ withinItems ps
termination_by structural ps => ps

def withinEntries : List (Expr × Pattern) → List Pattern
  | [] => []
  | e :: rest => withinEntry e ++ withinEntries rest
termination_by structural es => es

def withinEntry : Expr × Pattern → List Pattern
  | (_, p) => within p
termination_by structural e => e

end

/-- The rest of the pattern, if it has one, is not refused. -/
def restAllowed : Pattern → Bool
  | .cons _ rest _ => rest.badRest?.isNone
  | _ => true

end Pattern

/-! ## Assignments -/

/-- An assignment that keeps to what the program has bound. -/
structure Sight.Admits (sight : Sight) (rho : String → Value) : Prop where
  proper : ∀ name, (rho name).Proper
  bound : ∀ name v, sight.bound? name = some v → rho name = v

/-- An assignment agrees with bindings. -/
def Agrees (rho : String → Value) (bindings : List (String × Value)) : Prop :=
  ∀ b ∈ bindings, (rho b.1 == b.2) = true

/-- A value that can be compared: no promise inside, and sets and dictionaries without repetition. -/
structure Value.Plain (v : Value) : Prop where
  free : v.promiseFree = true
  proper : v.Proper

/-- What a match can have bound: plain values, to each name once, and to none that the program has
bound. -/
structure Sight.Binds (sight : Sight) (bindings : List (String × Value)) : Prop where
  plain : ∀ b ∈ bindings, b.2.Plain
  distinct : (bindings.map Prod.fst).Nodup
  new : ∀ b ∈ bindings, sight.bound? b.1 = none

/-- A part of a match either narrows the assignments that agree with the bindings to those for which `F`
holds, and leaves the keys `left`, or there are none. -/
inductive Decides (sight : Sight) (F : (String → Value) → Prop) (bindings : List (String × Value))
    (left : List Value) : Except Stop Progress → Prop
  | fits {progress : Progress} (binds : sight.Binds progress.bindings) (keys : progress.keys = left)
      (narrowed : ∀ rho, sight.Admits rho →
        (Agrees rho progress.bindings ↔ Agrees rho bindings ∧ F rho)) :
      Decides sight F bindings left (.ok progress)
  | misfit (none : ∀ rho, sight.Admits rho → Agrees rho bindings → ¬F rho) :
      Decides sight F bindings left (.error .mismatch)

namespace Decides

variable {sight : Sight} {F G : (String → Value) → Prop} {bindings : List (String × Value)}
  {progress : Progress} {left between : List Value} {x : Except Stop Progress}

theorem congr (h : Decides sight F bindings left x) (hFG : ∀ rho, F rho ↔ G rho) :
    Decides sight G bindings left x := by
  obtain rfl : F = G := funext fun rho => propext (hFG rho)
  exact h

/-- One part of a match after the other. -/
theorem bind {f : Progress → Except Stop Progress} (h : Decides sight F bindings between x)
    (hf : ∀ progress : Progress, sight.Binds progress.bindings → progress.keys = between →
      Decides sight G progress.bindings left (f progress)) :
    Decides sight (fun rho => F rho ∧ G rho) bindings left (x >>= f) := by
  cases h with
  | misfit none => exact .misfit fun rho hrho hagrees hFG => none rho hrho hagrees hFG.1
  | @fits progress binds keys narrowed =>
    change Decides sight _ bindings left (f progress)
    have hrest := hf progress binds keys
    revert hrest
    generalize f progress = y
    rintro (⟨binds', keys', narrowed'⟩ | ⟨none⟩)
    · refine .fits binds' keys' fun rho hrho => ?_
      rw [narrowed' rho hrho, narrowed rho hrho, and_assoc]
    · refine .misfit fun rho hrho hagrees hFG => ?_
      exact none rho hrho ((narrowed rho hrho).2 ⟨hagrees, hFG.1⟩) hFG.2

/-- Nothing is asked for. -/
theorem ok (progress : Progress) (binds : sight.Binds progress.bindings) (keys : progress.keys = left) :
    Decides sight (fun _ => True) progress.bindings left (.ok progress) :=
  .fits binds keys fun _ _ => (and_iff_left trivial).symm

theorem mismatch (h : ∀ rho, ¬F rho) : Decides sight F bindings left (.error .mismatch) :=
  .misfit fun rho _ _ => h rho

/-- A test that does not depend on the assignment. -/
theorem require (binds : sight.Binds progress.bindings) (keys : progress.keys = left) (holds : Bool) :
    Decides sight (fun _ => holds = true) progress.bindings left (Sight.require holds progress) := by
  cases holds with
  | true => exact (ok progress binds keys).congr fun _ => (eq_self_iff_true true).symm
  | false => exact mismatch fun _ => nofun

end Decides

/-! ## Names -/

namespace Sight

variable {sight : Sight} {v : Value} {progress : Progress} {left : List Value}

theorem settle_of_promiseFree (h : v.promiseFree = true) : sight.settle v = .ok v := by
  cases v with
  | promise p => cases h
  | _ => rfl

/-- A name that stands for `w` is compared. -/
theorem compare_decides {name : String} {w : Value} (hw : w.Plain) (hv : v.Plain)
    (binds : sight.Binds progress.bindings) (keys : progress.keys = left)
    (hname : ∀ rho, sight.Admits rho → Agrees rho progress.bindings → (rho name == w) = true) :
    Decides sight (fun rho => (rho name == v) = true) progress.bindings left
      (do
        let a ← sight.settle w
        let b ← sight.settle v
        require (a == b) progress) := by
  rw [settle_of_promiseFree hw.free, settle_of_promiseFree hv.free]
  change Decides sight _ progress.bindings left (require (w == v) progress)
  cases hwv : w == v with
  | true =>
    refine .fits binds keys fun rho hrho => (and_iff_left_of_imp fun hagrees => ?_).symm
    exact (Value.lawful_of_proper (hrho.proper name)).trans (hname rho hrho hagrees) hwv
  | false =>
    refine .misfit fun rho hrho hagrees hv => ?_
    -- what equals both would make them equal
    have hsymm := (Value.lawful_of_proper (hrho.proper name)).symm (hname rho hrho hagrees)
    have heq : (w == v) = true := (Value.lawful_of_proper hw.proper).trans hsymm hv
    rw [hwv] at heq
    cases heq

theorem bind_decides (hscope : ∀ name w, sight.bound? name = some w → w.Plain) (hv : v.Plain)
    (binds : sight.Binds progress.bindings) (keys : progress.keys = left) (name : String) :
    Decides sight (fun rho => (rho name == v) = true) progress.bindings left
      (sight.bind name v progress) := by
  unfold Sight.bind
  cases hlookup : progress.bindings.lookup name with
  | some w =>
    have hmem : (name, w) ∈ progress.bindings := by
      obtain ⟨before, after, heq, -⟩ := List.lookup_eq_some_iff.1 hlookup
      rw [heq]
      exact List.mem_append_right _ (.head _)
    exact compare_decides (binds.plain _ hmem) hv binds keys fun rho _ hagrees => hagrees _ hmem
  | none =>
    rw [Option.none_or]
    cases hbound : sight.bound? name with
    | some w =>
      refine compare_decides (hscope name w hbound) hv binds keys fun rho hrho _ => ?_
      rw [hrho.bound name w hbound]
      exact Value.beq_refl w
    | none =>
      have hnew : name ∉ progress.bindings.map Prod.fst := by
        intro hmem
        obtain ⟨b, hb, rfl⟩ := List.mem_map.1 hmem
        exact absurd rfl (bne_iff_ne.1 (List.lookup_eq_none_iff.1 hlookup b hb))
      refine .fits ⟨?_, ?_, ?_⟩ keys fun rho _ => ?_
      · exact List.forall_mem_cons.2 ⟨hv, binds.plain⟩
      · exact List.nodup_cons.2 ⟨hnew, binds.distinct⟩
      · exact List.forall_mem_cons.2 ⟨hbound, binds.new⟩
      · rw [Agrees, List.forall_mem_cons, and_comm]
        rfl

end Sight

/-! ## Parts -/

namespace Value.Plain

theorem of_tuple {vs : List Value} (h : (Value.tuple vs).Plain) : ∀ v ∈ vs, v.Plain := by
  obtain ⟨free, proper⟩ := h
  cases proper with
  | tuple _ items => exact fun v hv => ⟨(promiseFree_tuple vs).1 free v hv, items v hv⟩

theorem of_seq {s : Seq Value} (h : (Value.seq s).Plain) : ∀ v ∈ s.toList, v.Plain := by
  obtain ⟨free, proper⟩ := h
  cases proper with
  | seq _ items => exact fun v hv => ⟨(promiseFree_seq s).1 free v hv, items v hv⟩

theorem seqOf {vs : List Value} (h : ∀ v ∈ vs, v.Plain) : (Value.seqOf vs).Plain := by
  refine ⟨(promiseFree_seqOf vs).2 fun v hv => (h v hv).free, .seq _ fun v hv => ?_⟩
  rw [Seq.toList_ofList] at hv
  exact (h v hv).proper

/-- The entry of a dictionary that has a key is the one that is found by it, and its value is plain. -/
theorem of_get? {found : Entries} {key v : Value} (h : (Value.dict found).Plain)
    (hget : found.get? key = some v) : v.Plain ∧
      ∃ e ∈ found, (e.1 == key) = true ∧ v = e.2 ∧ ∀ e' ∈ found, (e'.1 == key) = true → e' = e := by
  obtain ⟨free, proper⟩ := h
  obtain ⟨e, hfind, rfl⟩ := Option.map_eq_some_iff.1 hget
  have he := List.mem_of_find?_eq_some hfind
  have hkey : (e.1 == key) = true := List.find?_some (p := fun e : Value × Value => e.1 == key) hfind
  cases proper with
  | dict _ keys values distinct =>
    refine ⟨⟨((promiseFree_dict found).1 free e he).2, values e he⟩, e, he, hkey, rfl, ?_⟩
    have hone : found.Pairwise fun a b => ¬((a.1 == key) = true ∧ (b.1 == key) = true) := by
      refine distinct.imp_of_mem fun ha hb hne hboth => ?_
      have heq := (lawful_of_proper (keys _ ha)).eqv_of_found (lawful_of_proper (keys _ hb))
        hboth.1 hboth.2
      rw [hne] at heq
      cases heq
    intro e' he' hkey'
    by_contra hne
    have : Std.Symm fun a b : Value × Value => ¬((a.1 == key) = true ∧ (b.1 == key) = true) :=
      ⟨fun _ _ hab hba => hab hba.symm⟩
    exact hone.forall he' he hne ⟨hkey', hkey⟩

end Value.Plain

namespace Pattern

variable {rho : String → Value} {keys : List Value}

theorem FitsItems.length_eq : ∀ {ps : List Pattern} {keys vs : List Value},
    FitsItems rho ps keys vs → vs.length = ps.length
  | [], _, _, h => congrArg List.length h
  | _ :: _, _, _, h => by
    obtain ⟨w, ws, rfl, -, hrest⟩ := h
    rw [List.length_cons, List.length_cons, hrest.length_eq]

/-- Items are matched one by one, so there have to be as many of them as patterns. -/
theorem decides_items {sight : Sight} {ps : List Pattern} {vs left : List Value}
    {bindings : List (String × Value)} {x : Except Stop Progress}
    (h : vs.length = ps.length →
      Decides sight (fun rho => FitsItems rho ps keys vs) bindings left x) :
    Decides sight (fun rho => FitsItems rho ps keys vs) bindings left
      (if vs.length = ps.length then x else .error .mismatch) := by
  split
  · rename_i hlength
    exact h hlength
  · rename_i hlength
    exact .mismatch fun rho hitems => hlength hitems.length_eq

/-- The parts of a sequence that a pattern with a rest is about. -/
theorem fits_cons_iff {front : List Pattern} {rest : Pattern} {back : List Pattern} {s : Seq Value} :
    (Pattern.cons front rest back).Fits rho keys (.seq s) ↔
      front.length + back.length ≤ s.length ∧
        FitsItems rho front keys (s.toList.take front.length) ∧
        rest.Fits rho (keys.drop (keysOfItems front).length)
          (.seqOf ((s.toList.take (s.length - back.length)).drop front.length)) ∧
        FitsItems rho back ((keys.drop (keysOfItems front).length).drop rest.keys.length)
          (s.toList.drop (s.length - back.length)) := by
  rw [Fits]
  constructor
  · rintro ⟨_, fs, middle, bs, ⟨⟩, hs, hfs, hbs, hfront, hrest, hback⟩
    have hlength : s.length = fs.length + middle.length + bs.length := by
      rw [← Seq.length_toList, hs, List.length_append, List.length_append]
    have hmiddle : s.length - back.length = (fs ++ middle).length := by
      rw [List.length_append]
      omega
    rw [hmiddle, hs, List.take_left, List.drop_left, ← hfs, List.drop_left, List.append_assoc,
      List.take_left]
    exact ⟨by omega, hfront, hrest, hback⟩
  · rintro ⟨hlength, hfront, hrest, hback⟩
    have htotal := Seq.length_toList s
    refine ⟨s, _, _, _, rfl, ?_, ?_, ?_, hfront, hrest, hback⟩
    · have hfirst : s.toList.take front.length =
          (s.toList.take (s.length - back.length)).take front.length := by
        rw [List.take_take, Nat.min_eq_left (by omega)]
      rw [hfirst, List.take_append_drop, List.take_append_drop]
    · rw [List.length_take]
      omega
    · rw [List.length_drop]
      omega

variable {sight : Sight}

mutual

theorem visit_decides (hscope : ∀ name w, sight.bound? name = some w → w.Plain) :
    ∀ (p : Pattern) {v : Value} {progress : Progress} {keys : List Value},
      (∀ q ∈ p.within, q.restAllowed = true) → v.Plain →
      sight.Binds progress.bindings → progress.keys = keys →
      p.keys.length ≤ keys.length →
      Decides sight (fun rho => p.Fits rho keys v) progress.bindings (keys.drop p.keys.length)
        (p.visit sight v progress)
  | .wildcard, _, _, _, _, _, binds, hkeys, _ => .ok _ binds hkeys
  | .bind name, _, _, _, _, hv, binds, hkeys, _ => sight.bind_decides hscope hv binds hkeys name
  | .alias name inner, _, _, _, hrests, hv, binds, hkeys, henough =>
    (visit_decides hscope inner (List.forall_mem_cons.1 hrests).2 hv binds hkeys henough).bind
      fun _ binds hkeys => sight.bind_decides hscope hv binds hkeys name
  | .literal expected, v, _, _, _, hv, binds, hkeys, _ => by
    rw [visit, Sight.settle_of_promiseFree hv.free]
    exact .require binds hkeys (v == expected)
  | .tuple items, v, _, _, hrests, hv, binds, hkeys, henough => by
    rw [visit, Sight.settle_of_promiseFree hv.free]
    cases v with
    | tuple vs =>
      refine (decides_items fun hlength => visitItems_decides hscope items
        (List.forall_mem_cons.1 hrests).2 hv.of_tuple hlength binds hkeys henough).congr fun rho => ?_
      exact ⟨fun h => ⟨vs, rfl, h⟩, fun ⟨_, heq, h⟩ => by cases heq; exact h⟩
    | _ => exact .mismatch fun rho ⟨_, h, _⟩ => by cases h
  | .sequence items, v, _, _, hrests, hv, binds, hkeys, henough => by
    rw [visit, Sight.settle_of_promiseFree hv.free]
    cases v with
    | seq s =>
      change Decides _ _ _ _ (if s.length = items.length then _ else _)
      rw [← Seq.length_toList]
      refine (decides_items fun hlength => visitItems_decides hscope items
        (List.forall_mem_cons.1 hrests).2 hv.of_seq hlength binds hkeys henough).congr fun rho => ?_
      exact ⟨fun h => ⟨s, rfl, h⟩, fun ⟨_, heq, h⟩ => by cases heq; exact h⟩
    | _ => exact .mismatch fun rho ⟨_, h, _⟩ => by cases h
  | .cons front rest back, v, progress, keys, hrests, hv, binds, hkeys, henough => by
    rw [within, List.forall_mem_cons, List.forall_mem_append, List.forall_mem_append] at hrests
    obtain ⟨hbad, hfront, hrest, hback⟩ := hrests
    rw [Pattern.keys, List.length_append, List.length_append] at henough ⊢
    rw [visit, Option.isNone_iff_eq_none.1 hbad, Sight.settle_of_promiseFree hv.free]
    cases v with
    | seq s =>
      have hitems := hv.of_seq
      have htotal := Seq.length_toList s
      change Decides _ _ _ _ (if front.length + back.length ≤ s.length then _ else _)
      split
      · rename_i hlength
        rw [← List.drop_drop, ← List.drop_drop]
        refine Decides.congr ?_ fun rho => (fits_cons_iff.trans (and_iff_right hlength)).symm
        refine (visitItems_decides hscope front hfront (fun v hv => hitems v (List.mem_of_mem_take hv))
          (List.length_take_of_le (by omega)) binds hkeys (by omega)).bind fun _ binds hkeys => ?_
        refine (visit_decides hscope rest hrest
          (.seqOf fun v hv => hitems v (List.mem_of_mem_take (List.mem_of_mem_drop hv))) binds hkeys
          (by rw [List.length_drop]; omega)).bind fun _ binds hkeys => ?_
        exact visitItems_decides hscope back hback (fun v hv => hitems v (List.mem_of_mem_drop hv))
          (by rw [List.length_drop]; omega) binds hkeys
          (by rw [List.length_drop, List.length_drop]; omega)
      · rename_i hlength
        exact .mismatch fun rho h => hlength (fits_cons_iff.1 h).1
    | _ => exact .mismatch fun rho ⟨_, _, _, _, h, _⟩ => by cases h
  | .dict entries, v, _, _, hrests, hv, binds, hkeys, henough => by
    rw [visit, Sight.settle_of_promiseFree hv.free]
    cases v with
    | dict found =>
      cases entries with
      | nil =>
        refine (Decides.require binds hkeys found.isEmpty).congr fun rho => ?_
        rw [List.isEmpty_iff]
        exact ⟨fun h => ⟨found, rfl, fun _ => h, trivial⟩,
          fun ⟨_, heq, h, _⟩ => by cases heq; exact h rfl⟩
      | cons e rest =>
        refine (visitEntries_decides hscope (e :: rest) (List.forall_mem_cons.1 hrests).2 hv binds hkeys
          henough).congr fun rho => ?_
        exact ⟨fun h => ⟨found, rfl, nofun, h⟩, fun ⟨_, heq, _, h⟩ => by cases heq; exact h⟩
    | _ => exact .mismatch fun rho ⟨_, h, _⟩ => by cases h
  | .guarded inner guard, _, _, _, hrests, hv, binds, hkeys, henough =>
    ((visit_decides hscope inner (List.forall_mem_cons.1 hrests).2 hv binds hkeys henough).bind
      fun progress binds hkeys =>
        Decides.ok { progress with guards := guard :: progress.guards } binds hkeys).congr
      fun _ => and_iff_left trivial
termination_by structural p => p

theorem visitItems_decides (hscope : ∀ name w, sight.bound? name = some w → w.Plain) :
    ∀ (ps : List Pattern) {vs : List Value} {progress : Progress} {keys : List Value},
      (∀ q ∈ withinItems ps, q.restAllowed = true) → (∀ v ∈ vs, v.Plain) → vs.length = ps.length →
      sight.Binds progress.bindings → progress.keys = keys → (keysOfItems ps).length ≤ keys.length →
      Decides sight (fun rho => FitsItems rho ps keys vs) progress.bindings
        (keys.drop (keysOfItems ps).length) (visitItems sight ps vs progress)
  | [], vs, _, _, _, _, hlength, binds, hkeys, _ => by
    obtain rfl := List.eq_nil_of_length_eq_zero hlength
    exact (Decides.ok _ binds hkeys).congr fun rho => (eq_self_iff_true _).symm
  | _ :: _, [], _, _, _, _, hlength, _, _, _ => by cases hlength
  | p :: ps, v :: vs, _, _, hrests, hvs, hlength, binds, hkeys, henough => by
    rw [withinItems, List.forall_mem_append] at hrests
    rw [List.forall_mem_cons] at hvs
    rw [keysOfItems, List.length_append] at henough ⊢
    rw [← List.drop_drop]
    have hall := (visit_decides hscope p hrests.1 hvs.1 binds hkeys (by omega)).bind
      fun _ binds hkeys => visitItems_decides hscope ps hrests.2 hvs.2 (Nat.succ.inj hlength) binds
        hkeys (by rw [List.length_drop]; omega)
    refine hall.congr fun rho => ⟨fun h => ⟨v, vs, rfl, h⟩, fun ⟨_, _, heq, h⟩ => ?_⟩
    cases heq
    exact h
termination_by structural ps => ps

theorem visitEntries_decides (hscope : ∀ name w, sight.bound? name = some w → w.Plain) :
    ∀ (es : List (Expr × Pattern)) {found : Entries} {progress : Progress} {keys : List Value},
      (∀ q ∈ withinEntries es, q.restAllowed = true) → (Value.dict found).Plain →
      sight.Binds progress.bindings → progress.keys = keys → (keysOfEntries es).length ≤ keys.length →
      Decides sight (fun rho => FitsEntries rho es keys found) progress.bindings
        (keys.drop (keysOfEntries es).length) (visitEntries sight es found progress)
  | [], _, _, _, _, _, binds, hkeys, _ => .ok _ binds hkeys
  | e :: rest, _, _, _, hrests, hfound, binds, hkeys, henough => by
    rw [withinEntries, List.forall_mem_append] at hrests
    rw [keysOfEntries, List.length_append] at henough ⊢
    rw [← List.drop_drop]
    exact (visitEntry_decides hscope e hrests.1 hfound binds hkeys (by omega)).bind fun _ binds hkeys =>
      visitEntries_decides hscope rest hrests.2 hfound binds hkeys (by rw [List.length_drop]; omega)
termination_by structural es => es

theorem visitEntry_decides (hscope : ∀ name w, sight.bound? name = some w → w.Plain) :
    ∀ (e : Expr × Pattern) {found : Entries} {progress : Progress} {keys : List Value},
      (∀ q ∈ withinEntry e, q.restAllowed = true) → (Value.dict found).Plain →
      sight.Binds progress.bindings → progress.keys = keys → (keysOfEntry e).length ≤ keys.length →
      Decides sight (fun rho => FitsEntry rho e keys found) progress.bindings
        (keys.drop (keysOfEntry e).length) (visitEntry sight e found progress)
  | (_, _), _, _, [], _, _, _, _, henough => by cases henough
  | (_, p), found, progress, key :: keys, hrests, hfound, binds, hkeys, henough => by
    rw [visitEntry, hkeys]
    change Decides _ _ _ (keys.drop p.keys.length) (match Entries.get? found key with
      | none => _
      | some v => _)
    cases hget : Entries.get? found key with
    | none =>
      refine .mismatch ?_
      rintro rho ⟨_, _, e, ⟨⟩, he, hkey, -⟩
      have hfind := List.find?_eq_none.1 (Option.map_eq_none_iff.1 hget) e he
      exact hfind hkey
    | some v =>
      obtain ⟨hv, e, he, hkey, rfl, hone⟩ := hfound.of_get? hget
      refine (@visit_decides hscope p e.2 { progress with keys } keys hrests hv binds rfl
        (Nat.le_of_succ_le_succ henough)).congr fun rho => ?_
      constructor
      · exact fun h => ⟨key, keys, e, rfl, he, hkey, h⟩
      · rintro ⟨_, _, e', ⟨⟩, he', hkey', h⟩
        exact hone e' he' hkey' ▸ h
termination_by structural e => e

end

end Pattern

/-! ## Whole matches -/

/-- What a match says about names, over what the program has bound; other names do not matter. -/
def Match.assignment (m : Match) (sight : Sight) (name : String) : Value :=
  ((m.bindings.lookup name).or (sight.bound? name)).getD .unit

namespace Sight.Binds

variable {sight : Sight} {m : Match}

theorem reverse {bindings : List (String × Value)} (h : sight.Binds bindings) :
    sight.Binds bindings.reverse where
  plain b hb := h.plain b (List.mem_reverse.1 hb)
  distinct := by
    rw [List.map_reverse]
    exact List.nodup_reverse.2 h.distinct
  new b hb := h.new b (List.mem_reverse.1 hb)

theorem lookup_eq {bindings : List (String × Value)} (h : sight.Binds bindings) {b : String × Value}
    (hb : b ∈ bindings) : bindings.lookup b.1 = some b.2 := by
  obtain ⟨before, after, rfl⟩ := List.append_of_mem hb
  refine List.lookup_eq_some_iff.2 ⟨before, after, rfl, fun c hc => bne_iff_ne.2 fun heq => ?_⟩
  have hdistinct := h.distinct
  rw [List.map_append, List.map_cons] at hdistinct
  exact List.disjoint_of_nodup_append hdistinct (List.mem_map_of_mem hc) (heq ▸ .head _)

theorem agrees (h : sight.Binds m.bindings) : Agrees (m.assignment sight) m.bindings := by
  intro b hb
  rw [Match.assignment, h.lookup_eq hb]
  exact Value.beq_refl b.2

theorem admits (h : sight.Binds m.bindings)
    (hscope : ∀ name w, sight.bound? name = some w → w.Plain) : sight.Admits (m.assignment sight) := by
  constructor
  · intro name
    rw [Match.assignment]
    cases hlookup : m.bindings.lookup name with
    | some w =>
      obtain ⟨before, after, heq, -⟩ := List.lookup_eq_some_iff.1 hlookup
      exact (h.plain (name, w) (heq ▸ List.mem_append_right _ (.head _))).proper
    | none =>
      cases hbound : sight.bound? name with
      | some w => exact (hscope name w hbound).proper
      | none => exact .unit
  · intro name w hbound
    have hlookup : m.bindings.lookup name = none := by
      refine List.lookup_eq_none_iff.2 fun b hb => bne_iff_ne.2 ?_
      rintro rfl
      cases (h.new b hb).symm.trans hbound
    rw [Match.assignment, hlookup, hbound]
    rfl

end Sight.Binds

namespace Pattern

/-- A pattern matches a plain value exactly if an assignment that keeps to what the program has bound
makes it fit, and otherwise the verdict is that it does not match. What a match binds, over what the
program has bound, is such an assignment, and the others are those that agree with what it binds. -/
theorem matching_decides {sight : Sight} {p : Pattern} {v : Value} {keys : List Value}
    (hscope : ∀ name w, sight.bound? name = some w → w.Plain)
    (hrests : ∀ q ∈ p.within, q.restAllowed = true) (hv : v.Plain)
    (hkeys : keys.length = p.keys.length) :
    ((∃ m, p.matching sight v keys = .ok (.matched m)) ↔
      ∃ rho, sight.Admits rho ∧ p.Fits rho keys v) ∧
    (p.matching sight v keys = .ok .noMatch ↔ ¬∃ rho, sight.Admits rho ∧ p.Fits rho keys v) ∧
    ∀ m, p.matching sight v keys = .ok (.matched m) →
      sight.Admits (m.assignment sight) ∧ p.Fits (m.assignment sight) keys v ∧
        ∀ rho, sight.Admits rho → (p.Fits rho keys v ↔ Agrees rho m.bindings) := by
  have hstart : sight.Binds [] := ⟨nofun, .nil, nofun⟩
  have hdecides := @visit_decides sight hscope p v ⟨keys, [], []⟩ keys hrests hv hstart rfl
    (Nat.le_of_eq hkeys.symm)
  have hnone : ∀ rho, Agrees rho [] := fun _ _ h => by cases h
  unfold matching
  generalize p.visit sight v ⟨keys, [], []⟩ = result at hdecides
  cases hdecides with
  | @fits progress binds _ narrowed =>
    let m : Match := ⟨progress.bindings.reverse, progress.guards.reverse⟩
    have hagrees : ∀ rho, sight.Admits rho → (p.Fits rho keys v ↔ Agrees rho m.bindings) := by
      intro rho hrho
      have hall := (narrowed rho hrho).trans (and_iff_right (hnone rho))
      rw [← hall, Agrees, Agrees]
      exact forall_congr' fun b => imp_congr_left List.mem_reverse.symm
    have hadmits : sight.Admits (m.assignment sight) := binds.reverse.admits hscope
    have hfits : p.Fits (m.assignment sight) keys v :=
      (hagrees _ hadmits).2 binds.reverse.agrees
    refine ⟨⟨fun _ => ⟨_, hadmits, hfits⟩, fun _ => ⟨m, rfl⟩⟩, ⟨nofun, fun h => ?_⟩, ?_⟩
    · exact absurd ⟨_, hadmits, hfits⟩ h
    · rintro m ⟨⟩
      exact ⟨hadmits, hfits, hagrees⟩
  | misfit none =>
    have hmisfit : ¬∃ rho, sight.Admits rho ∧ p.Fits rho keys v :=
      fun ⟨rho, hrho, hfits⟩ => none rho hrho (hnone rho) hfits
    exact ⟨⟨nofun, fun h => absurd h hmisfit⟩, ⟨fun _ => hmisfit, fun _ => rfl⟩, nofun⟩

/-- `(x, [x | more], {:k = y})`, where the program has bound `y`. -/
def echo : Pattern :=
  .tuple [.bind "x", .cons [.bind "x"] (.bind "more") [],
    .dict [(.literal (.symbol "k"), .bind "y")]]

/-- A value of that form, with `first` and `second` in the places of `x`. -/
def echoed (first second : Int64) : Value :=
  .tuple [.int first, .seqOf [.int second, .int 2], .dictOf [(.symbol "k", .int 3)]]

theorem matching_decides_echo :
    let sight : Sight := ⟨fun _ => none, fun name => if name = "y" then some (.int 3) else none⟩
    (∃ rho, sight.Admits rho ∧ echo.Fits rho [.symbol "k"] (echoed 1 1)) ∧
      ¬∃ rho, sight.Admits rho ∧ echo.Fits rho [.symbol "k"] (echoed 1 7) := by
  intro sight
  have hscope : ∀ name w, sight.bound? name = some w → w.Plain := by
    intro name w h
    change (if name = "y" then some (Value.int 3) else none) = some w at h
    split at h
    · cases h
      exact ⟨rfl, .int 3⟩
    · cases h
  have hplain : ∀ first second, (echoed first second).Plain := by
    intro first second
    refine ⟨rfl, .tuple _ ?_⟩
    simp only [List.forall_mem_cons]
    refine ⟨.int _, .seq _ ?_, Value.proper_dictOf ?_, List.forall_mem_nil _⟩
    · simp only [Seq.toList_ofList, List.forall_mem_cons]
      exact ⟨.int _, .int _, List.forall_mem_nil _⟩
    · exact fun e he => List.mem_singleton.1 he ▸ ⟨.symbol _, .int _⟩
  have hsame := @matching_decides sight echo _ [.symbol "k"] hscope (by decide) (hplain 1 1) rfl
  have hother := @matching_decides sight echo _ [.symbol "k"] hscope (by decide) (hplain 1 7) rfl
  exact ⟨hsame.1.1 ⟨_, rfl⟩, hother.2.1.1 rfl⟩

end Pattern

end Deferral
