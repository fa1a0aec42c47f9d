import Mathlib.Order.Lattice.Nat
import Deferral.Pattern.Match

/-!
# How often a match waits

A match that meets a pending promise is tried again from the beginning when that promise is settled.
What it has seen before it sees again, so it gets at least one look further, and the number of looks is
bounded by the pattern. `Patient f n σ` says that from the outcomes `σ` on, `f` waits at most `n` times
more; `patience` is the least such number. It goes down with each wait that is over
(`patience_lt_of_wait`), and `Pattern.looks` bounds it for a match (`Pattern.settling_visit`).

The size of a pattern pays for its looks, its keys and its guards together
(`Pattern.keys_guards_looks_le`).
-/

set_option autoImplicit false

namespace Deferral

/-- What is known of promises. -/
abbrev Outcomes := PromiseId → Option Outcome

/-- Whatever was known still is. -/
def Outcomes.Later (σ σ' : Outcomes) : Prop := ∀ p o, σ p = some o → σ' p = some o

open Outcomes

theorem Outcomes.Later.refl (σ : Outcomes) : Later σ σ := fun _ _ h => h

theorem Outcomes.Later.trans {σ σ' σ'' : Outcomes} (h : Later σ σ') (h' : Later σ' σ'') :
    Later σ σ'' :=
  fun p o hp => h' p o (h p o hp)

/-- From `σ` on, `f` waits at most `n` times, if it is taken up again when the promise that it has
waited for is settled. -/
def Patient {α : Type} (f : Outcomes → Except Stop α) : Nat → Outcomes → Prop
  | 0, σ => ∀ σ', Later σ σ' → ∀ p, f σ' ≠ .error (.wait p)
  | n + 1, σ => ∀ σ', Later σ σ' → ∀ p, f σ' = .error (.wait p) →
      ∀ σ'', Later σ' σ'' → (σ'' p).isSome → Patient f n σ''

namespace Patient

variable {α : Type} {f g : Outcomes → Except Stop α} {n n' : Nat} {σ σ' : Outcomes}

/-- Each wait is one of those that are granted. -/
theorem iff : Patient f n σ ↔ ∀ σ', Later σ σ' → ∀ p, f σ' = .error (.wait p) →
    ∃ k, n = k + 1 ∧ ∀ σ'', Later σ' σ'' → (σ'' p).isSome → Patient f k σ'' := by
  cases n with
  | zero => exact ⟨fun h σ' hσ p hp => absurd hp (h σ' hσ p), fun h σ' hσ p hp => by
      obtain ⟨k, hk, -⟩ := h σ' hσ p hp
      cases hk⟩
  | succ n => exact ⟨fun h σ' hσ p hp => ⟨n, rfl, h σ' hσ p hp⟩, fun h σ' hσ p hp => by
      obtain ⟨k, hk, hnext⟩ := h σ' hσ p hp
      obtain rfl := Nat.succ.inj hk
      exact hnext⟩

theorem later (h : Patient f n σ) (hσ : Later σ σ') : Patient f n σ' :=
  iff.2 fun σ'' hσ' p hp => iff.1 h σ'' (hσ.trans hσ') p hp

theorem congr (h : Patient f n σ) (hfg : ∀ σ', Later σ σ' → f σ' = g σ') : Patient g n σ := by
  induction n using Nat.strong_induction_on generalizing σ with
  | _ n ih =>
    refine iff.2 fun σ' hσ p hp => ?_
    obtain ⟨k, rfl, hnext⟩ := iff.1 h σ' hσ p (hfg σ' hσ ▸ hp)
    exact ⟨k, rfl, fun σ'' hσ' hknown => ih k (Nat.lt_succ_self k) (hnext σ'' hσ' hknown)
      fun τ hτ => hfg τ ((hσ.trans hσ').trans hτ)⟩

theorem mono (h : Patient f n σ) (hn : n ≤ n') : Patient f n' σ := by
  induction n using Nat.strong_induction_on generalizing σ n' with
  | _ n ih =>
    refine iff.2 fun σ' hσ p hp => ?_
    obtain ⟨k, rfl, hnext⟩ := iff.1 h σ' hσ p hp
    exact ⟨n' - 1, by omega, fun σ'' hσ' hknown =>
      ih k (Nat.lt_succ_self k) (hnext σ'' hσ' hknown) (by omega)⟩

end Patient

/-- The least number of waits that `f` has to be granted. -/
noncomputable def patience {α : Type} (f : Outcomes → Except Stop α) (σ : Outcomes) : Nat :=
  sInf {n | Patient f n σ}

theorem patience_le {α : Type} {f : Outcomes → Except Stop α} {n : Nat} {σ : Outcomes}
    (h : Patient f n σ) : patience f σ ≤ n :=
  Nat.sInf_le h

/-- A wait that is over was one of those that had been granted. -/
theorem patience_lt_of_wait {α : Type} {f : Outcomes → Except Stop α} {n : Nat} {σ σ' : Outcomes}
    {p : PromiseId} (hf : Patient f n σ) (hp : f σ = .error (.wait p)) (hσ : Later σ σ')
    (hknown : (σ' p).isSome) : patience f σ' < patience f σ := by
  have h : Patient f (patience f σ) σ := Nat.sInf_mem (s := {n | Patient f n σ}) ⟨n, hf⟩
  obtain ⟨k, hk, hnext⟩ := Patient.iff.1 h σ (.refl σ) p hp
  rw [hk]
  exact Nat.lt_succ_of_le (patience_le (hnext σ' hσ hknown))

/-- `f` keeps to its result, and waits at most `n` times. -/
structure Settling {α : Type} (n : Nat) (f : Outcomes → Except Stop α) : Prop where
  steady : ∀ {σ σ' a}, Later σ σ' → f σ = .ok a → f σ' = .ok a
  patient : ∀ σ, Patient f n σ

namespace Settling

variable {α β : Type} {n k : Nat} {f : Outcomes → Except Stop α} {g : α → Outcomes → Except Stop β}

theorem mono {n' : Nat} (h : Settling n f) (hn : n ≤ n') : Settling n' f :=
  ⟨h.steady, fun σ => (h.patient σ).mono hn⟩

/-- What does not look at promises never waits for one. -/
theorem const {r : Except Stop α} (hr : ∀ p, r ≠ .error (.wait p)) (n : Nat) :
    Settling n fun _ => r :=
  mono (n := 0) ⟨fun _ h => h, fun _ _ _ p => hr p⟩ (Nat.zero_le n)

theorem ok (a : α) (n : Nat) : Settling n fun _ => (.ok a : Except Stop α) :=
  const (fun _ h => by cases h) n

theorem mismatch (n : Nat) : Settling n fun _ => (.error .mismatch : Except Stop α) :=
  const (fun _ h => by cases h) n

theorem require (holds : Bool) (progress : Progress) (n : Nat) :
    Settling n fun _ => Sight.require holds progress := by
  unfold Sight.require
  cases holds with
  | true => exact ok progress n
  | false => exact mismatch n

theorem bind (hf : Settling n f) (hg : ∀ a, Settling k (g a)) :
    Settling (n + k) fun σ => f σ >>= fun a => g a σ := by
  refine ⟨fun {σ σ' b} hσ h => ?_, ?_⟩
  · change Except.bind (f σ) _ = _ at h
    change Except.bind (f σ') _ = _
    cases hfσ : f σ with
    | error e =>
      rw [hfσ] at h
      cases h
    | ok a =>
      rw [hfσ] at h
      rw [hf.steady hσ hfσ]
      exact (hg a).steady hσ h
  · -- on the number of waits that are left to `f`
    have key : ∀ n σ, Patient f n σ → Patient (fun σ => f σ >>= fun a => g a σ) (n + k) σ := by
      intro n
      induction n using Nat.strong_induction_on with
      | _ n ih =>
        intro σ h
        refine Patient.iff.2 fun σ' hσ p hp => ?_
        change Except.bind (f σ') _ = _ at hp
        cases hfσ : f σ' with
        | error e =>
          rw [hfσ] at hp
          obtain rfl := Except.error.inj hp
          obtain ⟨n', rfl, hnext⟩ := Patient.iff.1 h σ' hσ p hfσ
          exact ⟨n' + k, by omega, fun σ'' hσ' hknown =>
            ih n' (Nat.lt_succ_self n') σ'' (hnext σ'' hσ' hknown)⟩
        | ok a =>
          rw [hfσ] at hp
          obtain ⟨k', rfl, hnext⟩ := Patient.iff.1 ((hg a).patient σ') σ' (.refl σ') p hp
          refine ⟨n + k', rfl, fun σ'' hσ' hknown => ?_⟩
          have hsame : ∀ τ, Later σ'' τ → g a τ = f τ >>= fun a => g a τ := fun τ hτ => by
            rw [hf.steady (hσ'.trans hτ) hfσ]
            rfl
          exact ((hnext σ'' hσ' hknown).congr hsame).mono (Nat.le_add_left _ _)
    exact fun σ => key n σ (hf.patient σ)

/-- Looking through a promise waits once, if at all. -/
theorem settle (bound? : String → Option Value) (v : Value) :
    Settling 1 fun σ => Sight.settle ⟨σ, bound?⟩ v := by
  cases v with
  | promise p =>
    have hknown : ∀ {σ σ' : Outcomes} {o : Outcome}, Later σ σ' → σ p = some o →
        Sight.settle ⟨σ', bound?⟩ (.promise p) = Sight.settle ⟨σ, bound?⟩ (.promise p) := by
      intro σ σ' o hσ ho
      simp only [Sight.settle, ho, hσ p o ho]
    have hwait : ∀ {σ : Outcomes} {q : PromiseId},
        Sight.settle ⟨σ, bound?⟩ (.promise p) = .error (.wait q) → σ p = none ∧ q = p := by
      intro σ q h
      cases ho : σ p with
      | none =>
        simp only [Sight.settle, ho, Except.error.injEq, Stop.wait.injEq] at h
        exact ⟨rfl, h.symm⟩
      | some o => cases o <;> simp [Sight.settle, ho] at h
    refine ⟨fun {σ σ' a} hσ h => ?_, fun σ => Patient.iff.2 fun σ' _ q hq => ⟨0, rfl, ?_⟩⟩
    · cases ho : σ p with
      | none => simp [Sight.settle, ho] at h
      | some o => rw [hknown hσ ho, h]
    · obtain ⟨-, rfl⟩ := hwait hq
      intro σ'' _ hsome τ hτ r hr
      obtain ⟨o, ho⟩ := Option.isSome_iff_exists.1 hsome
      have hnone := (hwait hr).1
      rw [hτ q o ho] at hnone
      cases hnone
  | _ => exact ok _ 1

/-- Binding a name looks at what it is bound to and at the value. -/
theorem bindName (bound? : String → Option Value) (name : String) (v : Value) (progress : Progress) :
    Settling 2 fun σ => Sight.bind ⟨σ, bound?⟩ name v progress := by
  cases hb : (progress.bindings.lookup name).or (bound? name) with
  | none =>
    simp only [Sight.bind, hb]
    exact ok _ 2
  | some bound =>
    simp only [Sight.bind, hb]
    exact (settle bound? bound).bind fun a => (settle bound? v).bind (k := 0) fun b =>
      require (a == b) progress 0

end Settling

/-! ## Patterns -/

namespace Pattern

mutual

/-- How often a match looks through promises. -/
def looks : Pattern → Nat
  | .wildcard => 0
  | .literal _ => 1
  | .bind _ => 2
  | .alias _ inner => inner.looks + 2
  | .tuple items => 1 + looksOfItems items
  | .sequence items => 1 + looksOfItems items
  | .cons front rest back => 1 + (looksOfItems front + (rest.looks + looksOfItems back))
  | .dict entries => 1 + looksOfEntries entries
  | .guarded inner _ => inner.looks
termination_by structural p => p

def looksOfItems : List Pattern → Nat
  | [] => 0
  | p :: rest => p.looks + looksOfItems rest
termination_by structural ps => ps

def looksOfEntries : List (Expr × Pattern) → Nat
  | [] => 0
  | e :: rest => looksOfEntry e + looksOfEntries rest
termination_by structural es => es

def looksOfEntry : Expr × Pattern → Nat
  | (_, p) => p.looks
termination_by structural e => e

end

mutual

/-- A match waits at most as often as the pattern makes it look. -/
theorem settling_visit (bound? : String → Option Value) : ∀ (p : Pattern) (v : Value)
    (progress : Progress), Settling p.looks fun σ => p.visit ⟨σ, bound?⟩ v progress
  | .wildcard, v, progress => .ok progress 0
  | .bind name, v, progress => .bindName bound? name v progress
  | .alias name inner, v, progress =>
    (settling_visit bound? inner v progress).bind fun progress => .bindName bound? name v progress
  | .literal expected, v, progress =>
    (Settling.settle bound? v).bind (k := 0) fun v => .require (v == expected) progress 0
  | .tuple items, v, progress => by
    refine (Settling.settle bound? v).bind fun v => ?_
    cases v with
    | tuple values =>
      dsimp only
      split
      · exact settling_visitItems bound? items values progress
      · exact .mismatch _
    | _ => exact .mismatch _
  | .sequence items, v, progress => by
    refine (Settling.settle bound? v).bind fun v => ?_
    cases v with
    | seq s =>
      dsimp only
      split
      · exact settling_visitItems bound? items s.toList progress
      · exact .mismatch _
    | _ => exact .mismatch _
  | .cons front rest back, v, progress => by
    simp only [visit]
    cases rest.badRest? with
    | some kind => exact .const (fun _ h => by cases h) _
    | none =>
      refine (Settling.settle bound? v).bind fun v => ?_
      cases v with
      | seq s =>
        dsimp only
        split
        · exact (settling_visitItems bound? front _ progress).bind fun progress =>
            (settling_visit bound? rest _ progress).bind fun progress =>
              settling_visitItems bound? back _ progress
        · exact .mismatch _
      | _ => exact .mismatch _
  | .dict entries, v, progress => by
    refine (Settling.settle bound? v).bind fun v => ?_
    cases v with
    | dict found =>
      dsimp only
      split
      · exact .require _ progress _
      · exact settling_visitEntries bound? entries found progress
    | _ => exact .mismatch _
  | .guarded inner guard, v, progress =>
    (settling_visit bound? inner v progress).bind (k := 0) fun _ => .ok _ 0
termination_by structural p => p

theorem settling_visitItems (bound? : String → Option Value) : ∀ (ps : List Pattern)
    (vs : List Value) (progress : Progress),
    Settling (looksOfItems ps) fun σ => visitItems ⟨σ, bound?⟩ ps vs progress
  | [], _, progress => .ok progress _
  | _ :: _, [], progress => .ok progress _
  | p :: ps, v :: vs, progress =>
    (settling_visit bound? p v progress).bind fun progress =>
      settling_visitItems bound? ps vs progress
termination_by structural ps => ps

theorem settling_visitEntries (bound? : String → Option Value) : ∀ (es : List (Expr × Pattern))
    (found : Entries) (progress : Progress),
    Settling (looksOfEntries es) fun σ => visitEntries ⟨σ, bound?⟩ es found progress
  | [], _, progress => .ok progress _
  | e :: es, found, progress =>
    (settling_visitEntry bound? e found progress).bind fun progress =>
      settling_visitEntries bound? es found progress
termination_by structural es => es

theorem settling_visitEntry (bound? : String → Option Value) : ∀ (e : Expr × Pattern)
    (found : Entries) (progress : Progress),
    Settling (looksOfEntry e) fun σ => visitEntry ⟨σ, bound?⟩ e found progress
  | (key, p), found, progress => by
    simp only [visitEntry]
    split
    · exact .const (fun _ h => by cases h) _
    · split
      · exact .mismatch _
      · exact settling_visit bound? p _ _
termination_by structural e => e

end

/-- How many times a match with these keys may still have to wait. -/
noncomputable def patience (p : Pattern) (bound? : String → Option Value) (v : Value)
    (keys : List Value) (σ : Outcomes) : Nat :=
  Deferral.patience (fun σ => p.visit ⟨σ, bound?⟩ v ⟨keys, [], []⟩) σ

variable {p : Pattern} {bound? : String → Option Value} {v : Value} {keys : List Value}
  {σ σ' : Outcomes} {q : PromiseId}

theorem patience_le_looks : p.patience bound? v keys σ ≤ p.looks :=
  patience_le ((settling_visit bound? p v _).patient σ)

/-- A match that is tried again has one wait less before it. -/
theorem patience_lt_of_pending (h : p.matching ⟨σ, bound?⟩ v keys = .ok (.pending q))
    (hσ : Later σ σ') (hknown : (σ' q).isSome) :
    p.patience bound? v keys σ' < p.patience bound? v keys σ := by
  refine patience_lt_of_wait ((settling_visit bound? p v _).patient σ) ?_ hσ hknown
  unfold matching at h
  split at h
  · cases h
  · cases h
  · rename_i q' hvisit
    obtain rfl := Matching.pending.inj (Except.ok.inj h)
    exact hvisit
  · cases h

/-! ### Guards and keys -/

mutual

/-- The size of the guards of a pattern, and how many there are. -/
noncomputable def guardSize : Pattern → Nat
  | .wildcard => 0
  | .literal _ => 0
  | .bind _ => 0
  | .alias _ inner => inner.guardSize
  | .tuple items => guardSizeOfItems items
  | .sequence items => guardSizeOfItems items
  | .cons front rest back => guardSizeOfItems front + rest.guardSize + guardSizeOfItems back
  | .dict entries => guardSizeOfEntries entries
  | .guarded inner guard => inner.guardSize + (sizeOf guard + 1)
termination_by structural p => p

noncomputable def guardSizeOfItems : List Pattern → Nat
  | [] => 0
  | p :: rest => p.guardSize + guardSizeOfItems rest
termination_by structural ps => ps

noncomputable def guardSizeOfEntries : List (Expr × Pattern) → Nat
  | [] => 0
  | e :: rest => guardSizeOfEntry e + guardSizeOfEntries rest
termination_by structural es => es

noncomputable def guardSizeOfEntry : Expr × Pattern → Nat
  | (_, p) => p.guardSize
termination_by structural e => e

end

end Pattern

/-- The size of expressions that are evaluated one after the other. -/
noncomputable def Expr.total : List Expr → Nat
  | [] => 0
  | e :: es => sizeOf e + total es

namespace Expr

theorem total_cons (e : Expr) (es : List Expr) : total (e :: es) = sizeOf e + total es := rfl

theorem total_append (es es' : List Expr) : total (es ++ es') = total es + total es' := by
  induction es with
  | nil => exact (Nat.zero_add _).symm
  | cons e es ih => rw [List.cons_append, total_cons, total_cons, ih, Nat.add_assoc]

theorem total_reverse (es : List Expr) : total es.reverse = total es := by
  induction es with
  | nil => rfl
  | cons e es ih =>
    rw [List.reverse_cons, total_append, ih, total_cons, total_cons, Nat.add_comm]
    rfl

theorem sizeOf_list (es : List Expr) : sizeOf es = total es + es.length + 1 := by
  induction es with
  | nil => rfl
  | cons e es ih =>
    rw [total_cons, List.cons.sizeOf_spec, ih, List.length_cons]
    omega

end Expr

namespace Pattern

theorem one_le_sizeOf (name : String) : 1 ≤ sizeOf name := by
  cases name
  simp

mutual

/-- The size of a pattern pays for its keys, its guards and its looks. -/
theorem keys_guards_looks_le : ∀ p : Pattern,
    Expr.total p.keys + p.keys.length + p.guardSize + p.looks ≤ sizeOf p
  | .wildcard => by simp [keys, guardSize, looks, Expr.total]
  | .literal v => by simp [keys, guardSize, looks, Expr.total]
  | .bind name => by
    have hname := one_le_sizeOf name
    simp [keys, guardSize, looks, Expr.total]
    omega
  | .alias name inner => by
    have hname := one_le_sizeOf name
    have hinner := keys_guards_looks_le inner
    simp only [keys, guardSize, looks, Pattern.alias.sizeOf_spec]
    omega
  | .tuple items => by
    have hitems := keys_guards_looks_ofItems_le items
    simp only [keys, guardSize, looks, Pattern.tuple.sizeOf_spec]
    omega
  | .sequence items => by
    have hitems := keys_guards_looks_ofItems_le items
    simp only [keys, guardSize, looks, Pattern.sequence.sizeOf_spec]
    omega
  | .cons front rest back => by
    have hfront := keys_guards_looks_ofItems_le front
    have hrest := keys_guards_looks_le rest
    have hback := keys_guards_looks_ofItems_le back
    simp only [keys, guardSize, looks, Pattern.cons.sizeOf_spec, Expr.total_append, List.length_append]
    omega
  | .dict entries => by
    have hentries := keys_guards_looks_ofEntries_le entries
    simp only [keys, guardSize, looks, Pattern.dict.sizeOf_spec]
    omega
  | .guarded inner guard => by
    have hinner := keys_guards_looks_le inner
    simp only [keys, guardSize, looks, Pattern.guarded.sizeOf_spec]
    omega
termination_by structural p => p

theorem keys_guards_looks_ofItems_le : ∀ ps : List Pattern,
    Expr.total (keysOfItems ps) + (keysOfItems ps).length + guardSizeOfItems ps + looksOfItems ps ≤
      sizeOf ps
  | [] => by simp [keysOfItems, guardSizeOfItems, looksOfItems, Expr.total]
  | p :: ps => by
    have hp := keys_guards_looks_le p
    have hps := keys_guards_looks_ofItems_le ps
    simp only [keysOfItems, guardSizeOfItems, looksOfItems, List.cons.sizeOf_spec, Expr.total_append,
      List.length_append]
    omega
termination_by structural ps => ps

theorem keys_guards_looks_ofEntries_le : ∀ es : List (Expr × Pattern),
    Expr.total (keysOfEntries es) + (keysOfEntries es).length + guardSizeOfEntries es +
      looksOfEntries es ≤ sizeOf es
  | [] => by simp [keysOfEntries, guardSizeOfEntries, looksOfEntries, Expr.total]
  | e :: es => by
    have he := keys_guards_looks_ofEntry_le e
    have hes := keys_guards_looks_ofEntries_le es
    simp only [keysOfEntries, guardSizeOfEntries, looksOfEntries, List.cons.sizeOf_spec,
      Expr.total_append, List.length_append]
    omega
termination_by structural es => es

theorem keys_guards_looks_ofEntry_le : ∀ e : Expr × Pattern,
    Expr.total (keysOfEntry e) + (keysOfEntry e).length + guardSizeOfEntry e + looksOfEntry e ≤
      sizeOf e
  | (key, p) => by
    have hp := keys_guards_looks_le p
    simp only [keysOfEntry, guardSizeOfEntry, looksOfEntry, Prod.mk.sizeOf_spec, Expr.total_cons,
      List.length_cons]
    omega
termination_by structural e => e

end

/-- What guards add to the work that a match leads to. -/
noncomputable def toll (guards : List Expr) : Nat := Expr.total guards + guards.length

theorem toll_cons (guard : Expr) (guards : List Expr) :
    toll (guard :: guards) = sizeOf guard + toll guards + 1 := by
  rw [toll, Expr.total_cons, List.length_cons, toll]
  omega

/-- `f` collects guards of at most this size. -/
def Collecting (n : Nat) (progress : Progress) (r : Except Stop Progress) : Prop :=
  ∀ progress', r = .ok progress' → toll progress'.guards ≤ toll progress.guards + n

namespace Collecting

variable {n k : Nat} {progress : Progress} {r : Except Stop Progress}

theorem error (e : Stop) : Collecting n progress (.error e) := fun _ h => by cases h

theorem ok : Collecting n progress (.ok progress) := by
  intro progress' h
  obtain rfl := Except.ok.inj h
  exact Nat.le_add_right _ _

theorem bind {f : Progress → Except Stop Progress} (hr : Collecting n progress r)
    (hf : ∀ progress, Collecting k progress (f progress)) : Collecting (n + k) progress (r >>= f) := by
  intro progress' h
  cases r with
  | error e => cases h
  | ok middle =>
    have hmiddle := hr middle rfl
    have hrest := hf middle progress' h
    omega

/-- A look at a promise collects nothing. -/
theorem look {α : Type} {x : Except Stop α} {f : α → Except Stop Progress}
    (hf : ∀ a, Collecting n progress (f a)) : Collecting n progress (x >>= f) := by
  intro progress' h
  cases x with
  | error e => cases h
  | ok a => exact hf a progress' h

theorem require (holds : Bool) : Collecting n progress (Sight.require holds progress) := by
  unfold Sight.require
  split
  · exact ok
  · exact error _

theorem bindName (sight : Sight) (name : String) (v : Value) :
    Collecting n progress (sight.bind name v progress) := by
  unfold Sight.bind
  split
  · exact look fun _ => look fun _ => require _
  · intro progress' h
    obtain rfl := Except.ok.inj h
    exact Nat.le_add_right _ _

end Collecting

mutual

theorem collecting_visit (sight : Sight) : ∀ (p : Pattern) (v : Value) (progress : Progress),
    Collecting p.guardSize progress (p.visit sight v progress)
  | .wildcard, _, progress => .ok
  | .bind name, v, progress => .bindName sight name v
  | .alias name inner, v, progress =>
    (collecting_visit sight inner v progress).bind (k := 0) fun _ => .bindName sight name v
  | .literal expected, v, progress => .look fun _ => .require _
  | .tuple items, v, progress => by
    refine .look fun v => ?_
    cases v with
    | tuple values =>
      dsimp only
      split
      · exact collecting_visitItems sight items values progress
      · exact .error _
    | _ => exact .error _
  | .sequence items, v, progress => by
    refine .look fun v => ?_
    cases v with
    | seq s =>
      dsimp only
      split
      · exact collecting_visitItems sight items s.toList progress
      · exact .error _
    | _ => exact .error _
  | .cons front rest back, v, progress => by
    simp only [visit]
    cases rest.badRest? with
    | some kind => exact .error _
    | none =>
      refine .look fun v => ?_
      cases v with
      | seq s =>
        dsimp only
        split
        · rw [guardSize, Nat.add_assoc]
          exact (collecting_visitItems sight front _ progress).bind fun progress =>
            (collecting_visit sight rest _ progress).bind fun progress =>
              collecting_visitItems sight back _ progress
        · exact .error _
      | _ => exact .error _
  | .dict entries, v, progress => by
    refine .look fun v => ?_
    cases v with
    | dict found =>
      dsimp only
      split
      · exact .require _
      · exact collecting_visitEntries sight entries found progress
    | _ => exact .error _
  | .guarded inner guard, v, progress => by
    refine (collecting_visit sight inner v progress).bind fun progress progress' h => ?_
    obtain rfl := Except.ok.inj h
    rw [toll_cons]
    omega
termination_by structural p => p

theorem collecting_visitItems (sight : Sight) : ∀ (ps : List Pattern) (vs : List Value)
    (progress : Progress),
    Collecting (guardSizeOfItems ps) progress (visitItems sight ps vs progress)
  | [], _, _ => .ok
  | _ :: _, [], _ => .ok
  | p :: ps, v :: vs, progress =>
    (collecting_visit sight p v progress).bind fun progress =>
      collecting_visitItems sight ps vs progress
termination_by structural ps => ps

theorem collecting_visitEntries (sight : Sight) : ∀ (es : List (Expr × Pattern)) (found : Entries)
    (progress : Progress),
    Collecting (guardSizeOfEntries es) progress (visitEntries sight es found progress)
  | [], _, _ => .ok
  | e :: es, found, progress =>
    (collecting_visitEntry sight e found progress).bind fun progress =>
      collecting_visitEntries sight es found progress
termination_by structural es => es

theorem collecting_visitEntry (sight : Sight) : ∀ (e : Expr × Pattern) (found : Entries)
    (progress : Progress),
    Collecting (guardSizeOfEntry e) progress (visitEntry sight e found progress)
  | (key, p), found, progress => by
    simp only [visitEntry]
    split
    · exact .error _
    · rename_i key' keys hkeys
      split
      · exact .error _
      · exact collecting_visit sight p _ { progress with keys }
termination_by structural e => e

end

/-- A match hands on the guards of its pattern. -/
theorem toll_of_matched {sight : Sight} {p : Pattern} {v : Value} {keys : List Value} {m : Match}
    (h : p.matching sight v keys = .ok (.matched m)) : toll m.guards ≤ p.guardSize := by
  unfold matching at h
  split at h
  · rename_i progress hvisit
    obtain rfl := Matching.matched.inj (Except.ok.inj h)
    have hguards := collecting_visit sight p v _ progress hvisit
    simp only [toll, Expr.total_reverse, List.length_reverse] at hguards ⊢
    simpa [Expr.total] using hguards
  · cases h
  · cases h
  · cases h

end Pattern

end Deferral
