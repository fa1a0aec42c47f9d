import Deferral.Proofs.Eval.Run
import Deferral.Proofs.Promise.Steps
import Deferral.Proofs.Transparency.Rules
import Mathlib.Algebra.BigOperators.Intervals
import Mathlib.Data.List.Forall2

/-!
# A plan for the promises of a run

When some of the values of a transparent program are not there yet, promises stand for them. A `Plan`
says, for each promise that the run is about, which value it is going to have, and gives it two
numbers: promises with a lower `rank` are settled without it, and its `weight` bounds the work that is
left with the promise it waits for.

`Stands` relates what the run has in its hands to the values themselves: a promise stands for the
value planned for it. The relation is carried over to scopes, results and frames, and survives every
extension of the plan.
-/

set_option autoImplicit false

namespace Deferral

/-- What a run starts from. -/
structure Setting where
  context : Context
  /-- The functions there are at the start. -/
  functions : Array Function
  /-- The promises the run is about: some that are there at the start, and all later ones. -/
  watches : PromiseId → Bool
  /-- How many promises there are at the start. -/
  start : Nat
  watches_later : ∀ p : PromiseId, start ≤ p.index → watches p = true
  /-- How many tasks are in the queue at the start. -/
  older : Nat
  /-- How deeply tasks may be nested. -/
  nesting : Nat
  accepts : 0 < nesting → context.executor ≠ .refusing

/-- The functions that may occur in values. -/
abbrev Setting.allows (S : Setting) : FunctionId → Bool := Deferral.allows S.functions

/-- What is to become of promises and gathers. -/
structure Plan where
  value : PromiseId → Option Value
  rank : PromiseId → Nat
  weight : PromiseId → Nat
  /-- The result of a gather and the values of its operands. -/
  gather : GatherId → Option (PromiseId × List Value)

namespace Plan

/-- A plan that has been extended. -/
structure Le (G G' : Plan) : Prop where
  value : ∀ {p : PromiseId} {v : Value}, G.value p = some v → G'.value p = some v
  rank : ∀ {p : PromiseId} {v : Value}, G.value p = some v → G'.rank p = G.rank p
  weight : ∀ {p : PromiseId} {v : Value}, G.value p = some v → G'.weight p = G.weight p
  gather : ∀ {id : GatherId} {x : PromiseId × List Value}, G.gather id = some x →
    G'.gather id = some x

theorem Le.refl (G : Plan) : G.Le G := ⟨fun h => h, fun _ => rfl, fun _ => rfl, fun h => h⟩

theorem Le.trans {G₁ G₂ G₃ : Plan} (h : G₁.Le G₂) (h' : G₂.Le G₃) : G₁.Le G₃ :=
  ⟨fun hp => h'.value (h.value hp), fun hp => (h'.rank (h.value hp)).trans (h.rank hp),
    fun hp => (h'.weight (h.value hp)).trans (h.weight hp), fun hp => h'.gather (h.gather hp)⟩

/-- Plans a new promise. -/
def track (G : Plan) (p : PromiseId) (v : Value) (rank weight : Nat) : Plan where
  value q := if q = p then some v else G.value q
  rank q := if q = p then rank else G.rank q
  weight q := if q = p then weight else G.weight q
  gather := G.gather

section

variable {G : Plan} {p q : PromiseId} {v : Value} {rank weight : Nat}

@[simp] theorem value_track_self : (G.track p v rank weight).value p = some v := if_pos rfl

@[simp] theorem rank_track_self : (G.track p v rank weight).rank p = rank := if_pos rfl

@[simp] theorem weight_track_self : (G.track p v rank weight).weight p = weight := if_pos rfl

theorem value_track_ne (h : q ≠ p) : (G.track p v rank weight).value q = G.value q := if_neg h

/-- Planning a promise that has not been planned for extends the plan. -/
theorem le_track (h : G.value p = none) : G.Le (G.track p v rank weight) := by
  have hne : ∀ {q : PromiseId} {w : Value}, G.value q = some w → q ≠ p := by
    rintro q w hq rfl
    rw [h] at hq
    cases hq
  exact ⟨fun hq => (value_track_ne (hne hq)).trans hq, fun hq => if_neg (hne hq),
    fun hq => if_neg (hne hq), fun hq => hq⟩

end

/-- Plans a new gather. -/
def gathering (G : Plan) (id : GatherId) (result : PromiseId) (vs : List Value) : Plan :=
  { G with gather := fun id' => if id' = id then some (result, vs) else G.gather id' }

theorem gather_gathering_self {G : Plan} {id : GatherId} {r : PromiseId} {vs : List Value} :
    (G.gathering id r vs).gather id = some (r, vs) := if_pos rfl

theorem gather_gathering_ne {G : Plan} {id id' : GatherId} {r : PromiseId} {vs : List Value}
    (h : id' ≠ id) : (G.gathering id r vs).gather id' = G.gather id' := if_neg h

theorem le_gathering {G : Plan} {id : GatherId} {r : PromiseId} {vs : List Value}
    (h : G.gather id = none) : G.Le (G.gathering id r vs) := by
  refine ⟨fun hq => hq, fun _ => rfl, fun _ => rfl, fun {id'} x hx => ?_⟩
  rw [gather_gathering_ne, hx]
  rintro rfl
  rw [h] at hx
  cases hx

/-- The work that a continuation stands for. -/
def load (G : Plan) : Continuation Handler → Nat
  | .adopt _ => 1
  | .derive target _ => G.weight target
  | .gather .. => 1
  | .notify _ => 0

end Plan

/-! ## Standing for values -/

/-- `x` is the value, or a promise of rank at most `τ` that is going to have it. -/
inductive Stands (S : Setting) (G : Plan) (τ : Nat) : Value → Value → Prop where
  | itself {v : Value} (inert : v.inert S.allows = true) : Stands S G τ v v
  | promise {p : PromiseId} {v : Value} (value : G.value p = some v) (rank : G.rank p ≤ τ)
      (inert : v.inert S.allows = true) : Stands S G τ (.promise p) v

theorem Stands.inert {S : Setting} {G : Plan} {τ : Nat} {x v : Value} (h : Stands S G τ x v) :
    v.inert S.allows = true := by
  cases h <;> assumption

theorem Stands.mono {S : Setting} {G G' : Plan} {τ τ' : Nat} {x v : Value} (h : Stands S G τ x v)
    (hG : G.Le G') (hτ : τ ≤ τ') : Stands S G' τ' x v := by
  cases h with
  | itself inert => exact .itself inert
  | promise value rank inert =>
    exact .promise (hG.value value) ((hG.rank value).trans_le (rank.trans hτ)) inert

section

variable (R : Value → Value → Prop)

/-- Bindings of the same names to related values. -/
structure Binding.Rel (b b' : Binding) : Prop where
  name : b.name = b'.name
  builtin : b.builtin = b'.builtin
  value : R b.value b'.value

/-- Named values of the same names. -/
def NamedRel : List (String × Value) → List (String × Value) → Prop :=
  List.Forall₂ fun b b' => b.1 = b'.1 ∧ R b.2 b'.2

/-- The same work over related values. -/
inductive Work.Rel : Work → Work → Prop where
  | letIn (bindings : List (Pattern × Expr)) (body : Expr) :
      Work.Rel (.letIn bindings body) (.letIn bindings body)
  | block (steps : List Step) : Work.Rel (.block steps) (.block steps)
  | yield {x v : Value} (h : R x v) : Work.Rel (.yield x) (.yield v)
  | select {x v : Value} (h : R x v) (arms : List Arm) (unmatched : Unmatched) :
      Work.Rel (.select x arms unmatched) (.select v arms unmatched)

/-- A trial of the same arm on related values. -/
inductive Trial.Rel : Trial → Trial → Prop where
  | mk {x v : Value} (h : R x v) (arm : Arm) (later : List Arm) (unmatched : Unmatched) :
      Trial.Rel ⟨x, arm, later, unmatched⟩ ⟨v, arm, later, unmatched⟩

/-- The same frame over related values. -/
inductive Frame.Rel : Frame → Frame → Prop where
  | branch (onTrue onFalse : Expr) : Frame.Rel (.branch onTrue onFalse) (.branch onTrue onFalse)
  | connectiveLeft (op : BinaryOp) (right : Expr) :
      Frame.Rel (.connectiveLeft op right) (.connectiveLeft op right)
  | connectiveRight (op : BinaryOp) : Frame.Rel (.connectiveRight op) (.connectiveRight op)
  | andThen {w w' : Work} (h : w.Rel R w') : Frame.Rel (.andThen w) (.andThen w')
  | bindKeys {x v : Value} {w w' : Work} (h : R x v) (p : Pattern) (next : w.Rel R w') :
      Frame.Rel (.bindKeys x p w) (.bindKeys v p w')
  | bindRetry {x v : Value} {w w' : Work} (h : R x v) (p : Pattern) (ks : List Value)
      (next : w.Rel R w') : Frame.Rel (.bindRetry x p ks w) (.bindRetry v p ks w')
  | bindGuard {x v : Value} {w w' : Work} (h : R x v) (guards : List Expr) (next : w.Rel R w') :
      Frame.Rel (.bindGuard x guards w) (.bindGuard v guards w')
  | armKeys {t t' : Trial} (h : t.Rel R t') : Frame.Rel (.armKeys t) (.armKeys t')
  | armRetry {t t' : Trial} (h : t.Rel R t') (ks : List Value) :
      Frame.Rel (.armRetry t ks) (.armRetry t' ks)
  | armGuard {t t' : Trial} {bs bs' : List (String × Value)} (h : t.Rel R t') (hb : NamedRel R bs bs')
      (guards : List Expr) : Frame.Rel (.armGuard t bs guards) (.armGuard t' bs' guards)
  | alternative {t t' : Trial} {bs bs' : List (String × Value)} (h : t.Rel R t')
      (hb : NamedRel R bs bs') (body : Expr) (others : List (Option Expr × Expr)) :
      Frame.Rel (.alternative t bs body others) (.alternative t' bs' body others)
  | call {args args' : List Value} (h : List.Forall₂ R args args') (location : Option Location) :
      Frame.Rel (.call args location) (.call args' location)

end

section

variable {R R' : Value → Value → Prop} (hR : ∀ {x v : Value}, R x v → R' x v)
include hR

theorem Binding.Rel.mono {b b' : Binding} (h : b.Rel R b') : b.Rel R' b' :=
  ⟨h.name, h.builtin, hR h.value⟩

theorem NamedRel.mono {bs bs' : List (String × Value)} (h : NamedRel R bs bs') :
    NamedRel R' bs bs' :=
  List.Forall₂.imp (fun _ _ hb => ⟨hb.1, hR hb.2⟩) h

theorem Work.Rel.mono {w w' : Work} (h : w.Rel R w') : w.Rel R' w' := by
  cases h with
  | letIn bindings body => exact .letIn bindings body
  | block steps => exact .block steps
  | yield h => exact .yield (hR h)
  | select h arms unmatched => exact .select (hR h) arms unmatched

theorem Trial.Rel.mono {t t' : Trial} (h : t.Rel R t') : t.Rel R' t' := by
  obtain ⟨h, arm, later, unmatched⟩ := h
  exact ⟨hR h, arm, later, unmatched⟩

theorem Frame.Rel.mono {f f' : Frame} (h : f.Rel R f') : f.Rel R' f' := by
  cases h with
  | branch onTrue onFalse => exact .branch onTrue onFalse
  | connectiveLeft op right => exact .connectiveLeft op right
  | connectiveRight op => exact .connectiveRight op
  | andThen h => exact .andThen (h.mono hR)
  | bindKeys h p next => exact .bindKeys (hR h) p (next.mono hR)
  | bindRetry h p ks next => exact .bindRetry (hR h) p ks (next.mono hR)
  | bindGuard h guards next => exact .bindGuard (hR h) guards (next.mono hR)
  | armKeys h => exact .armKeys (h.mono hR)
  | armRetry h ks => exact .armRetry (h.mono hR) ks
  | armGuard h hb guards => exact .armGuard (h.mono hR) (hb.mono hR) guards
  | alternative h hb body others => exact .alternative (h.mono hR) (hb.mono hR) body others
  | call h location => exact .call (h.imp fun _ _ => hR) location

end

/-- The bindings stand for others. -/
def ScopeStands (S : Setting) (G : Plan) (τ : Nat) : List Binding → List Binding → Prop :=
  List.Forall₂ (Binding.Rel (Stands S G τ))

theorem ScopeStands.mono {S : Setting} {G G' : Plan} {τ τ' : Nat} {bs bs' : List Binding}
    (h : ScopeStands S G τ bs bs') (hG : G.Le G') (hτ : τ ≤ τ') : ScopeStands S G' τ' bs bs' :=
  List.Forall₂.imp (fun _ _ hb => hb.mono fun hx => hx.mono hG hτ) h

/-! ## What a match may still have to wait for -/

/-- How many promises a value is that are still due. -/
def Value.waits (due : PromiseId → Bool) : Value → Nat
  | .promise p => (due p).toNat
  | _ => 0

/-- How many promises in scope are still due. -/
def scopeWaits (due : PromiseId → Bool) (bs : List Binding) : Nat :=
  (bs.map fun b => b.value.waits due).sum

/-- How many promises the match of a frame may have to wait for. -/
def Frame.waits (due : PromiseId → Bool) (bs : List Binding) : Frame → Nat
  | .bindRetry x .. => x.waits due + scopeWaits due bs
  | .armRetry trial _ => trial.value.waits due + scopeWaits due bs
  | _ => 0

section

variable {due due' : PromiseId → Bool}

theorem Value.waits_mono (h : ∀ p, due' p = true → due p = true) (x : Value) :
    x.waits due' ≤ x.waits due := by
  cases x with
  | promise p =>
    simp only [Value.waits]
    cases hp : due' p with
    | false => exact Nat.zero_le _
    | true => rw [h p hp]
  | _ => exact Nat.le_refl _

theorem scopeWaits_mono (h : ∀ p, due' p = true → due p = true) (bs : List Binding) :
    scopeWaits due' bs ≤ scopeWaits due bs := by
  induction bs with
  | nil => exact Nat.le_refl _
  | cons b rest ih =>
    simp only [scopeWaits, List.map_cons, List.sum_cons] at ih ⊢
    exact Nat.add_le_add (Value.waits_mono h b.value) ih

theorem Frame.waits_mono (h : ∀ p, due' p = true → due p = true) (bs : List Binding) (f : Frame) :
    f.waits due' bs ≤ f.waits due bs := by
  cases f with
  | bindRetry x p ks next => exact Nat.add_le_add (Value.waits_mono h x) (scopeWaits_mono h bs)
  | armRetry t ks => exact Nat.add_le_add (Value.waits_mono h t.value) (scopeWaits_mono h bs)
  | _ => exact Nat.le_refl _

theorem Value.waits_le_one (due : PromiseId → Bool) (x : Value) : x.waits due ≤ 1 := by
  cases x with
  | promise p => exact Bool.toNat_le (due p)
  | _ => exact Nat.zero_le _

theorem scopeWaits_le (due : PromiseId → Bool) (bs : List Binding) :
    scopeWaits due bs ≤ bs.length := by
  induction bs with
  | nil => exact Nat.le_refl _
  | cons b rest ih =>
    have hb := Value.waits_le_one due b.value
    simp only [scopeWaits, List.map_cons, List.sum_cons, List.length_cons] at ih ⊢
    omega

/-- A promise that is waited for no longer counts. -/
theorem scopeWaits_lt {q : PromiseId} {bs : List Binding} (h : ∀ p, due' p = true → due p = true)
    (hq : due q = true) (hq' : due' q = false) {b : Binding} (hb : b ∈ bs)
    (hv : b.value = .promise q) : scopeWaits due' bs < scopeWaits due bs := by
  induction bs with
  | nil => cases hb
  | cons b₀ rest ih =>
    simp only [scopeWaits, List.map_cons, List.sum_cons] at ih ⊢
    rcases List.mem_cons.1 hb with rfl | hb
    · have hrest := scopeWaits_mono h rest
      simp only [scopeWaits] at hrest
      rw [hv, Value.waits, Value.waits, hq, hq', Bool.toNat_false, Bool.toNat_true]
      omega
    · have hb₀ := Value.waits_mono h b₀.value
      have := ih hb
      omega

end

end Deferral
