import Mathlib.Data.List.Forall2
import Deferral.Proofs.Pattern.Fits

/-!
# Two matches side by side

A match may be given a value that stands in for another one: a promise that holds it, or the value with
promises in the place of parts. `StandIn` says what this takes: looking through the one shows a value of
the form of the other, or there is a promise to wait for. Then a match of the one stops at such a
promise, or it goes as the match of the other does, and what it binds stands in for what the other match
binds (`StandIn.visit`, and `StandIn.matching` for whole matches).

The names in the pattern are either such that what they are bound to can be compared, or they are new.
-/

set_option autoImplicit false

namespace Deferral

namespace Value

/-- Neither a promise nor something that has parts which may be promises. -/
def isAtom : Value → Bool
  | .seq _ | .tuple _ | .dict _ | .promise _ => false
  | _ => true

/-- Values of the same form, whose parts are related. -/
inductive SameForm (P : Value → Value → Prop) : Value → Value → Prop
  | atom {v : Value} (atom : v.isAtom = true) : SameForm P v v
  | tuple {ws vs : List Value} (items : List.Forall₂ P ws vs) : SameForm P (.tuple ws) (.tuple vs)
  | seq {t s : Seq Value} (items : List.Forall₂ P t.toList s.toList) : SameForm P (.seq t) (.seq s)
  | dict {ds es : List (Value × Value)}
      (entries : List.Forall₂ (fun d e => d.1 = e.1 ∧ P d.2 e.2) ds es) :
      SameForm P (.dict ds) (.dict es)

theorem sameForm_itself {P : Value → Value → Prop} {v : Value} (hv : v.isPromise = false)
    (htuple : ∀ items, v = .tuple items → ∀ w ∈ items, P w w)
    (hseq : ∀ s, v = .seq s → ∀ w ∈ s.toList, P w w)
    (hdict : ∀ es, v = .dict es → ∀ e ∈ es, P e.2 e.2) : v.SameForm P v := by
  cases v with
  | tuple items => exact .tuple (List.forall₂_same.2 (htuple items rfl))
  | seq s => exact .seq (List.forall₂_same.2 (hseq s rfl))
  | dict es => exact .dict (List.forall₂_same.2 fun e he => ⟨rfl, hdict es rfl e he⟩)
  | promise p => cases hv
  | _ => exact .atom rfl

/-- A key leads to related values. -/
theorem get?_related {P : Value → Value → Prop} {ds es : List (Value × Value)}
    (h : List.Forall₂ (fun d e => d.1 = e.1 ∧ P d.2 e.2) ds es) (key : Value) :
    Option.Rel P (Entries.get? ds key) (Entries.get? es key) := by
  induction h with
  | nil => exact .none
  | @cons d e _ _ hhead _ ih =>
    rw [Entries.get?, Entries.get?, List.find?_cons, List.find?_cons, hhead.1]
    cases e.1 == key with
    | true => exact .some hhead.2
    | false => exact ih

end Value

namespace Pattern

/-- The name that a pattern is or gives to what it matches. -/
def name? : Pattern → Option String
  | .bind name => some name
  | .alias name _ => some name
  | _ => none

/-- All names in a pattern. -/
def names (p : Pattern) : List String := p.within.filterMap name?

/-- If the pattern is a literal, it is one of these. -/
def LiteralIn (L : Value → Prop) : Pattern → Prop
  | .literal v => L v
  | _ => True

end Pattern

/-! ## What stands in -/

/-- Looking through `x` shows `w`, which has the form of `v` and which no literal tells from it. -/
structure Sight.Sees (sight : Sight) (P : Value → Value → Prop) (L : Value → Prop) (x v w : Value) :
    Prop where
  settles : sight.settle x = .ok w
  sameForm : w.SameForm P v
  literals : ∀ e, L e → (w == e) = (v == e)

/-- What `R` relates to a value stands in for it: a match with `sight` may be given it instead, beside a
match of the value with `sight'`. `P` relates the parts of what is seen to the parts of the value. -/
structure StandIn (sight sight' : Sight) (R P : Value → Value → Prop) (waits : PromiseId → Prop)
    (L : Value → Prop) : Prop where
  plain : ∀ {x v}, R x v → sight'.settle v = .ok v
  sees : ∀ {x v}, R x v → (∃ w, sight.Sees P L x v w) ∨
    ∃ q, waits q ∧ sight.settle x = .error (.wait q)
  part : ∀ {x v}, P x v → R x v
  rest : ∀ {xs vs}, List.Forall₂ P xs vs → R (.seqOf xs) (.seqOf vs)

/-- What names are bound to can be compared: it stands in for what the other match has, and looking
through it shows the very value. -/
structure Sight.Comparable (sight sight' : Sight) (R : Value → Value → Prop) : Prop where
  scope : ∀ name, Option.Rel R (sight.bound? name) (sight'.bound? name)
  same : ∀ {x v w}, R x v → sight.settle x = .ok w → w = v

/-- Different names that are neither bound by the program nor taken. -/
structure Sight.Fresh (sight sight' : Sight) (taken names : List String) : Prop where
  distinct : names.Nodup
  apart : ∀ name ∈ names, name ∉ taken
  unbound : ∀ name ∈ names, sight.bound? name = none ∧ sight'.bound? name = none

/-- The names that two matches may meet. -/
def Sight.Allows (sight sight' : Sight) (R : Value → Value → Prop) (taken names : List String) : Prop :=
  sight.Comparable sight' R ∨ sight.Fresh sight' taken names

namespace Sight

variable {sight sight' : Sight} {R : Value → Value → Prop} {taken names names' : List String}

/-- Some of the names, and the others after them. -/
theorem Fresh.split (h : sight.Fresh sight' taken (names ++ names')) :
    sight.Fresh sight' taken names ∧ sight.Fresh sight' (names ++ taken) names' := by
  obtain ⟨hnames, hnames', hdisjoint⟩ := List.nodup_append.1 h.distinct
  refine ⟨⟨hnames, fun n hn => h.apart n (List.mem_append_left _ hn),
    fun n hn => h.unbound n (List.mem_append_left _ hn)⟩, hnames', fun n hn hmem => ?_,
    fun n hn => h.unbound n (List.mem_append_right _ hn)⟩
  rcases List.mem_append.1 hmem with hmem | hmem
  · exact hdisjoint n hmem n hn rfl
  · exact h.apart n (List.mem_append_right _ hn) hmem

theorem Allows.split (h : sight.Allows sight' R taken (names ++ names')) :
    sight.Allows sight' R taken names ∧ sight.Allows sight' R (names ++ taken) names' := by
  rcases h with hcomparable | hfresh
  · exact ⟨.inl hcomparable, .inl hcomparable⟩
  · exact hfresh.split.imp .inr .inr

/-- The first name, after the others. -/
theorem Allows.first_last {name : String} (h : sight.Allows sight' R taken (name :: names)) :
    sight.Allows sight' R taken names ∧ sight.Allows sight' R (names ++ taken) [name] := by
  rcases h with hcomparable | hfresh
  · exact ⟨.inl hcomparable, .inl hcomparable⟩
  · have hboth : sight.Fresh sight' taken ([name] ++ names) := hfresh
    obtain ⟨hfirst, hnames⟩ := hboth.split
    refine ⟨.inr ⟨hnames.distinct, fun n hn => ?_, hnames.unbound⟩, .inr ⟨List.nodup_singleton _, ?_,
      hfirst.unbound⟩⟩
    · exact hfresh.apart n (.tail _ hn)
    · intro n hn hmem
      rcases List.mem_append.1 hmem with hmem | hmem
      · exact hnames.apart n hmem (List.mem_append_left _ hn)
      · exact hfirst.apart n hn hmem

end Sight

/-! ## Two matches -/

/-- The progress of a match of what stands in for a value, and that of the match of the value. The names
that have been bound are among those that are taken. -/
structure Progress.Alike (R : Value → Value → Prop) (taken : List String)
    (progress' progress : Progress) : Prop where
  keys : progress'.keys = progress.keys
  bindings : List.Forall₂ (fun b' b => b'.1 = b.1 ∧ R b'.2 b.2) progress'.bindings progress.bindings
  guards : progress'.guards = progress.guards
  names : ∀ b ∈ progress.bindings, b.1 ∈ taken

/-- A match stops at a promise that is to be waited for, or it goes as the other one does. -/
inductive Parallels (R : Value → Value → Prop) (waits : PromiseId → Prop) (taken : List String) :
    Except Stop Progress → Except Stop Progress → Prop
  | waits {q : PromiseId} (hq : waits q) (other : Except Stop Progress) :
      Parallels R waits taken (.error (.wait q)) other
  | mismatch : Parallels R waits taken (.error .mismatch) (.error .mismatch)
  | fails (r : Fault) :
      Parallels R waits taken (.error (.fail (.resolution r))) (.error (.fail (.resolution r)))
  | goesOn {progress' progress : Progress} (h : progress'.Alike R taken progress) :
      Parallels R waits taken (.ok progress') (.ok progress)

/-- Both matches succeed, and bind and collect the same, or both do not fit, or both fail alike. -/
inductive SameVerdict (R : Value → Value → Prop) : Except Error Matching → Except Error Matching → Prop
  | matched {m' m : Match}
      (bindings : List.Forall₂ (fun b' b => b'.1 = b.1 ∧ R b'.2 b.2) m'.bindings m.bindings)
      (guards : m'.guards = m.guards) : SameVerdict R (.ok (.matched m')) (.ok (.matched m))
  | noMatch : SameVerdict R (.ok .noMatch) (.ok .noMatch)
  | fails (r : Fault) : SameVerdict R (.error (.resolution r)) (.error (.resolution r))

section

variable {sight sight' : Sight} {R P : Value → Value → Prop} {waits : PromiseId → Prop}
  {L : Value → Prop} {taken taken' : List String} {progress' progress : Progress}

namespace Parallels

theorem weaken {x y : Except Stop Progress} (h : Parallels R waits taken x y)
    (hsub : ∀ name ∈ taken, name ∈ taken') : Parallels R waits taken' x y := by
  cases h with
  | waits hq => exact .waits hq _
  | mismatch => exact .mismatch
  | fails r => exact .fails r
  | goesOn h => exact .goesOn ⟨h.keys, h.bindings, h.guards, fun b hb => hsub _ (h.names b hb)⟩

theorem bind {x y : Except Stop Progress} {f g : Progress → Except Stop Progress}
    (h : Parallels R waits taken x y)
    (hf : ∀ progress' progress, progress'.Alike R taken progress →
      Parallels R waits taken' (f progress') (g progress)) :
    Parallels R waits taken' (x >>= f) (y >>= g) := by
  cases h with
  | waits hq => exact .waits hq _
  | mismatch => exact .mismatch
  | fails r => exact .fails r
  | goesOn h => exact hf _ _ h

theorem require (h : progress'.Alike R taken progress) (holds : Bool) :
    Parallels R waits taken (Sight.require holds progress') (Sight.require holds progress) := by
  cases holds with
  | true => exact .goesOn h
  | false => exact .mismatch

end Parallels

/-- A name that is bound in neither match, or in both to what can be compared. -/
theorem Progress.Alike.lookup {name : String} (hname : sight.Allows sight' R taken [name])
    (h : progress'.Alike R taken progress) :
    Option.Rel (fun y w => R y w ∧ sight.Comparable sight' R)
      ((progress'.bindings.lookup name).or (sight.bound? name))
      ((progress.bindings.lookup name).or (sight'.bound? name)) := by
  obtain ⟨-, hbindings, -, hnames⟩ := h
  generalize progress'.bindings = bindings' at hbindings
  generalize progress.bindings = bindings at hbindings hnames
  induction hbindings with
  | nil =>
    rcases hname with hcomparable | hfresh
    · have hscope := hcomparable.scope name
      generalize sight.bound? name = found' at hscope
      generalize sight'.bound? name = found at hscope
      cases hscope with
      | none => exact .none
      | some hb => exact .some ⟨hb, hcomparable⟩
    · obtain ⟨hbound, hbound'⟩ := hfresh.unbound name (.head _)
      rw [hbound, hbound']
      exact .none
  | @cons b' b _ _ hb _ ih =>
    obtain ⟨n, x⟩ := b'
    obtain ⟨n', v⟩ := b
    obtain ⟨rfl, hx⟩ := hb
    rw [List.lookup_cons, List.lookup_cons]
    cases hn : name == n with
    | false => exact ih fun b hb => hnames b (.tail _ hb)
    | true =>
      obtain rfl := beq_iff_eq.1 hn
      rcases hname with hcomparable | hfresh
      · exact .some ⟨hx, hcomparable⟩
      · exact absurd (hnames _ (.head _)) (hfresh.apart name (.head _))

/-- The names that have been used after some patterns and then others. -/
theorem mem_append_swap {names names' : List String} :
    ∀ name ∈ names' ++ (names ++ taken), name ∈ (names ++ names') ++ taken := by
  intro name h
  simp only [List.mem_append] at h ⊢
  tauto

namespace StandIn

/-- Going on with what is seen. -/
theorem look (hin : StandIn sight sight' R P waits L) {x v : Value} (hx : R x v)
    {f g : Value → Except Stop Progress}
    (hf : ∀ w, sight.Sees P L x v w → Parallels R waits taken (f w) (g v)) :
    Parallels R waits taken (sight.settle x >>= f) (sight'.settle v >>= g) := by
  rw [hin.plain hx]
  rcases hin.sees hx with ⟨w, hw⟩ | ⟨q, hq, hwait⟩
  · rw [hw.settles]
    exact hf w hw
  · rw [hwait]
    exact .waits hq _

theorem bindName (hin : StandIn sight sight' R P waits L) {name : String}
    (hname : sight.Allows sight' R taken [name]) {x v : Value} (hx : R x v)
    (h : progress'.Alike R taken progress) :
    Parallels R waits (name :: taken) (sight.bind name x progress') (sight'.bind name v progress) := by
  have htaken : ∀ b ∈ progress.bindings, b.1 ∈ name :: taken := fun b hb => .tail _ (h.names b hb)
  have hlookup := h.lookup hname
  unfold Sight.bind
  generalize (progress'.bindings.lookup name).or (sight.bound? name) = found' at hlookup
  generalize (progress.bindings.lookup name).or (sight'.bound? name) = found at hlookup
  cases hlookup with
  | none =>
    exact .goesOn ⟨h.keys, .cons ⟨rfl, hx⟩ h.bindings, h.guards, List.forall_mem_cons.2
      ⟨.head _, htaken⟩⟩
  | some hb =>
    refine hin.look hb.1 fun a ha => hin.look hx fun b hb' => ?_
    rw [hb.2.same hb.1 ha.settles, hb.2.same hx hb'.settles]
    exact .require ⟨h.keys, h.bindings, h.guards, htaken⟩ _

mutual

/-- The match of what stands in for a value. -/
theorem visit (hin : StandIn sight sight' R P waits L) :
    ∀ (p : Pattern) {x v : Value} {progress' progress : Progress} {taken : List String},
      (∀ q ∈ p.within, q.LiteralIn L) → sight.Allows sight' R taken (p.within.filterMap Pattern.name?) →
      R x v → progress'.Alike R taken progress →
      Parallels R waits (p.within.filterMap Pattern.name? ++ taken) (p.visit sight x progress')
        (p.visit sight' v progress)
  | .wildcard, _, _, _, _, _, _, _, _, h => .goesOn h
  | .bind name, _, _, _, _, _, _, hnames, hx, h => hin.bindName hnames hx h
  | .alias name inner, _, _, _, _, _, hliterals, hnames, hx, h => by
    obtain ⟨hinner, hname⟩ := hnames.first_last
    exact (hin.visit inner (List.forall_mem_cons.1 hliterals).2 hinner hx h).bind
      fun _ _ h => hin.bindName hname hx h
  | .literal expected, _, _, _, _, _, hliterals, _, hx, h => by
    refine hin.look hx fun w hw => ?_
    rw [hw.literals expected (hliterals _ (.head _))]
    exact .require h _
  | .tuple items, _, v, _, _, _, hliterals, hnames, hx, h => by
    refine hin.look hx fun w hw => ?_
    cases hw.sameForm with
    | atom atom => cases v <;> first | exact .mismatch | cases atom
    | tuple hitems =>
      simp only [hitems.length_eq]
      split
      · exact hin.visitItems items (List.forall_mem_cons.1 hliterals).2 hnames hitems h
      · exact .mismatch
    | _ => exact .mismatch
  | .sequence items, _, v, _, _, _, hliterals, hnames, hx, h => by
    refine hin.look hx fun w hw => ?_
    cases hw.sameForm with
    | atom atom => cases v <;> first | exact .mismatch | cases atom
    | seq hitems =>
      simp only [← Seq.length_toList, hitems.length_eq]
      split
      · exact hin.visitItems items (List.forall_mem_cons.1 hliterals).2 hnames hitems h
      · exact .mismatch
    | _ => exact .mismatch
  | .cons front rest back, _, v, _, _, _, hliterals, hnames, hx, h => by
    rw [Pattern.visit, Pattern.visit]
    cases rest.badRest? with
    | some kind => exact .fails _
    | none =>
      refine hin.look hx fun w hw => ?_
      cases hw.sameForm with
      | atom atom => cases v <;> first | exact .mismatch | cases atom
      | seq hitems =>
        rw [Pattern.within, List.forall_mem_cons, List.forall_mem_append, List.forall_mem_append]
          at hliterals
        obtain ⟨-, hfront, hrest, hback⟩ := hliterals
        rw [Pattern.within, List.filterMap_cons_none rfl, List.filterMap_append,
          List.filterMap_append] at hnames ⊢
        obtain ⟨hnames, hnames'⟩ := hnames.split
        simp only [← Seq.length_toList, hitems.length_eq]
        split
        · refine Parallels.weaken ?_ mem_append_swap
          refine (hin.visitItems front hfront hnames (List.forall₂_take _ hitems) h).bind
            fun _ _ h => ?_
          refine Parallels.weaken ?_ mem_append_swap
          refine (hin.visit rest hrest hnames'.split.1
            (hin.rest (List.forall₂_drop _ (List.forall₂_take _ hitems))) h).bind fun _ _ h => ?_
          exact hin.visitItems back hback hnames'.split.2 (List.forall₂_drop _ hitems) h
        · exact .mismatch
      | _ => exact .mismatch
  | .dict entries, _, v, _, _, _, hliterals, hnames, hx, h => by
    refine hin.look hx fun w hw => ?_
    cases hw.sameForm with
    | atom atom => cases v <;> first | exact .mismatch | cases atom
    | @dict ds es hentries =>
      cases entries with
      | nil =>
        have hempty : ds.isEmpty = es.isEmpty := by cases hentries <;> rfl
        simp only [List.isEmpty_nil, if_true, hempty]
        exact .require h _
      | cons e rest =>
        exact hin.visitEntries (e :: rest) (List.forall_mem_cons.1 hliterals).2 hnames hentries h
    | _ => exact .mismatch
  | .guarded inner guard, _, _, _, _, _, hliterals, hnames, hx, h =>
    (hin.visit inner (List.forall_mem_cons.1 hliterals).2 hnames hx h).bind
      fun _ _ h => .goesOn ⟨h.keys, h.bindings, congrArg (guard :: ·) h.guards, h.names⟩
termination_by structural p => p

theorem visitItems (hin : StandIn sight sight' R P waits L) :
    ∀ (ps : List Pattern) {xs vs : List Value} {progress' progress : Progress} {taken : List String},
      (∀ q ∈ Pattern.withinItems ps, q.LiteralIn L) →
      sight.Allows sight' R taken ((Pattern.withinItems ps).filterMap Pattern.name?) →
      List.Forall₂ P xs vs → progress'.Alike R taken progress →
      Parallels R waits ((Pattern.withinItems ps).filterMap Pattern.name? ++ taken)
        (Pattern.visitItems sight ps xs progress') (Pattern.visitItems sight' ps vs progress)
  | [], _, _, _, _, _, _, _, hxs, h => by cases hxs <;> exact .goesOn h
  | _ :: _, _, _, _, _, _, _, _, .nil, h =>
    .goesOn ⟨h.keys, h.bindings, h.guards, fun b hb => List.mem_append_right _ (h.names b hb)⟩
  | p :: ps, _, _, _, _, _, hliterals, hnames, .cons hx hxs, h => by
    rw [Pattern.withinItems, List.forall_mem_append] at hliterals
    rw [Pattern.withinItems, List.filterMap_append] at hnames ⊢
    obtain ⟨hnames, hnames'⟩ := hnames.split
    refine Parallels.weaken ?_ mem_append_swap
    exact (hin.visit p hliterals.1 hnames (hin.part hx) h).bind fun _ _ h =>
      hin.visitItems ps hliterals.2 hnames' hxs h
termination_by structural ps => ps

theorem visitEntries (hin : StandIn sight sight' R P waits L) :
    ∀ (entries : List (Expr × Pattern)) {ds es : Entries} {progress' progress : Progress}
      {taken : List String},
      (∀ q ∈ Pattern.withinEntries entries, q.LiteralIn L) →
      sight.Allows sight' R taken ((Pattern.withinEntries entries).filterMap Pattern.name?) →
      List.Forall₂ (fun d e => d.1 = e.1 ∧ P d.2 e.2) ds es → progress'.Alike R taken progress →
      Parallels R waits ((Pattern.withinEntries entries).filterMap Pattern.name? ++ taken)
        (Pattern.visitEntries sight entries ds progress')
        (Pattern.visitEntries sight' entries es progress)
  | [], _, _, _, _, _, _, _, _, h => .goesOn h
  | e :: rest, _, _, _, _, _, hliterals, hnames, hentries, h => by
    rw [Pattern.withinEntries, List.forall_mem_append] at hliterals
    rw [Pattern.withinEntries, List.filterMap_append] at hnames ⊢
    obtain ⟨hnames, hnames'⟩ := hnames.split
    refine Parallels.weaken ?_ mem_append_swap
    exact (hin.visitEntry e hliterals.1 hnames hentries h).bind fun _ _ h =>
      hin.visitEntries rest hliterals.2 hnames' hentries h
termination_by structural es => es

theorem visitEntry (hin : StandIn sight sight' R P waits L) :
    ∀ (entry : Expr × Pattern) {ds es : Entries} {progress' progress : Progress} {taken : List String},
      (∀ q ∈ Pattern.withinEntry entry, q.LiteralIn L) →
      sight.Allows sight' R taken ((Pattern.withinEntry entry).filterMap Pattern.name?) →
      List.Forall₂ (fun d e => d.1 = e.1 ∧ P d.2 e.2) ds es → progress'.Alike R taken progress →
      Parallels R waits ((Pattern.withinEntry entry).filterMap Pattern.name? ++ taken)
        (Pattern.visitEntry sight entry ds progress') (Pattern.visitEntry sight' entry es progress)
  | (_, p), ds, es, progress', progress, _, hliterals, hnames, hentries, h => by
    rw [Pattern.visitEntry, Pattern.visitEntry, h.keys]
    cases progress.keys with
    | nil => exact .fails _
    | cons key keys =>
      have hget := Value.get?_related hentries key
      simp only
      generalize Entries.get? ds key = found' at hget
      generalize Entries.get? es key = found at hget
      cases hget with
      | none => exact .mismatch
      | some hx => exact hin.visit p hliterals hnames (hin.part hx) ⟨rfl, h.bindings, h.guards, h.names⟩
termination_by structural e => e

end

/-- A whole match waits, or its verdict is that of the other one. -/
theorem matching (hin : StandIn sight sight' R P waits L) {p : Pattern}
    (hliterals : ∀ q ∈ p.within, q.LiteralIn L) (hnames : sight.Allows sight' R [] p.names)
    {x v : Value} (hx : R x v) (keys : List Value) :
    (∃ q, p.matching sight x keys = .ok (.pending q) ∧ waits q) ∨
    SameVerdict R (p.matching sight x keys) (p.matching sight' v keys) := by
  have hstart : Progress.Alike R [] ⟨keys, [], []⟩ ⟨keys, [], []⟩ := ⟨rfl, .nil, rfl, nofun⟩
  have hparallels := hin.visit p hliterals hnames hx hstart
  unfold Pattern.matching
  generalize p.visit sight x ⟨keys, [], []⟩ = result' at hparallels
  generalize p.visit sight' v ⟨keys, [], []⟩ = result at hparallels
  cases hparallels with
  | waits hq => exact .inl ⟨_, rfl, hq⟩
  | mismatch => exact .inr .noMatch
  | fails r => exact .inr (.fails r)
  | goesOn h => exact .inr (.matched (List.rel_reverse h.bindings) (congrArg List.reverse h.guards))

end StandIn

end

end Deferral
