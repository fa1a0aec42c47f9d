import Deferral.Proofs.Promise.Network
import Deferral.Proofs.Promise.Settlement

/-!
# Networks on their way to their denotation

`OnTrack` is the invariant of a network while its script is followed and while cascades run: settled
promises have the outcomes they should have, whatever waits or is in flight will do the right thing
with the outcome it is for, a gather is missing exactly the operands that wait or are in flight, and,
so that no wake-up is lost, something waits or is in flight for each promise that is still pending. A
promise may be *excused* from the last point while the step that is to settle it is under way.

There is one lemma for each thing a step can do: use up a continuation (`OnTrack.consume`,
`OnTrack.record`), hand one on (`OnTrack.feed`), settle a promise, let a continuation wait, and make
promises and gathers.
-/

set_option autoImplicit false

namespace Deferral

namespace Network

/-- Continuations in flight, each with the promise whose outcome it is for. -/
abbrev Flight := Multiset (PromiseId × Continuation PureHandler)

/-- The continuation brings an operand to a gather. -/
def isFor (id : GatherId) : Continuation PureHandler → Bool
  | .gather id' _ => id' = id
  | _ => false

/-- The outcomes `den` are those that the nodes make of each other. -/
structure Denotes (nodes : List Node) (den : PromiseId → Outcome) : Prop where
  inScope : Scoped nodes
  outcome : ∀ (i : Nat) (node : Node), nodes[i]? = some node →
    den ⟨i⟩ = node.outcome den (den ⟨i⟩)
  concrete : ∀ p, Concrete (den p)
  agrees : Agrees nodes den

variable (nodes : List Node) (den : PromiseId → Outcome)

/-- Given the outcome of `p`, the continuation gives its target the right outcome. -/
def Right (s : Store PureHandler) (p : PromiseId) : Continuation PureHandler → Prop
  | .adopt t => p.index < t.index ∧ s.Has t ∧ den t = den p
  | .derive t h => p.index < t.index ∧ s.Has t ∧ den t = (h (den p)).bind (operandValue den) ∧
      ∀ q, h (den p) = .ok (.promise q) → q.index < t.index
  | .gather id _ => id.index < s.gathers.size
  | .notify _ => True

/-- The continuation is to settle `p`. -/
def Feeds (s : Store PureHandler) (p : PromiseId) : Continuation PureHandler → Prop
  | .adopt t | .derive t _ => t = p
  | .gather id _ => ∃ g, s.gathers[id.index]? = some g ∧ g.done = false ∧ g.result = p
  | .notify _ => False

/-- A gather has the values of its operands, but for those that are under way. -/
structure Collects (under : Flight) (id : GatherId) (g : Gather) (operands : List Value) : Prop where
  node : nodes[g.result.index]? = some (.all operands)
  length : g.values.length = operands.length
  remaining : g.remaining = under.countP fun e => isFor id e.2
  place : ∀ p i, (p, .gather id i) ∈ under → operands[i]? = some (.promise p)
  filled : ∀ (i : Nat) (v : Value), operands[i]? = some v → (∃ p, (p, .gather id i) ∈ under) ∨
    ∃ w, g.values[i]? = some w ∧ operandValue den v = .ok w

/-- The store, with what is in flight, is on its way to the denotation. -/
structure OnTrack (excused : PromiseId → Prop) (s : Store PureHandler) (flight : Flight) : Prop where
  settled : ∀ p o, s.outcome? p = some o → o = den p
  right : ∀ e ∈ s.waits + flight, s.Has e.1 ∧ Right den s e.1 e.2
  gathers : ∀ (id : GatherId) (g : Gather), s.gathers[id.index]? = some g → g.done = false →
    s.Has g.result ∧ ∃ operands, Collects nodes den (s.waits + flight) id g operands
  live : ∀ p, s.Has p → s.outcome? p = none → nodes[p.index]? ≠ some .source → ¬excused p →
    ∃ e ∈ s.waits + flight, Feeds s p e.2

/-- Nothing is excused. -/
abbrev Tracked := OnTrack nodes den fun _ => False

variable {nodes den} {s s' : Store PureHandler} {flight flight' : Flight} {p q t : PromiseId}
  {k : Continuation PureHandler} {excused : PromiseId → Prop}

/-! ## What a gather makes of its operands -/

theorem mapM_operandValue_eq_ok : ∀ {operands values : List Value}, values.length = operands.length →
    (∀ (i : Nat) (v : Value), operands[i]? = some v →
      ∃ w, values[i]? = some w ∧ operandValue den v = .ok w) →
    operands.mapM (operandValue den) = .ok values
  | [], [], _, _ => rfl
  | v :: operands, w :: values, hlen, h => by
    obtain ⟨w', hw', hv⟩ := h 0 v rfl
    obtain rfl := Option.some.inj hw'
    have hrest := mapM_operandValue_eq_ok (Nat.succ.inj hlen) fun i u hu => h (i + 1) u hu
    rw [List.mapM_cons, hv, hrest]
    rfl

theorem mapM_operandValue_eq_error : ∀ {operands : List Value} {e : Error} {v : Value},
    v ∈ operands → operandValue den v = .error e →
    (∀ w ∈ operands, ∀ e', operandValue den w = .error e' → e' = e) →
    operands.mapM (operandValue den) = .error e
  | u :: operands, e, v, hv, he, hagree => by
    rw [List.mapM_cons]
    cases hu : operandValue den u with
    | error e' =>
      obtain rfl := hagree u (.head _) e' hu
      rfl
    | ok w =>
      -- the first operand does not fail, so one of the others does
      have hv' : v ∈ operands := by
        rcases List.mem_cons.1 hv with rfl | hv
        · rw [hu] at he
          cases he
        · exact hv
      rw [mapM_operandValue_eq_error hv' he fun x hx => hagree x (.tail _ hx)]
      rfl

namespace Denotes

variable (h : Denotes nodes den)
include h

theorem all_ok {r : PromiseId} {operands values : List Value}
    (hnode : nodes[r.index]? = some (.all operands)) (hlen : values.length = operands.length)
    (hvalues : ∀ (i : Nat) (v : Value), operands[i]? = some v →
      ∃ w, values[i]? = some w ∧ operandValue den v = .ok w) :
    den r = .ok (.tuple values) := by
  rw [h.outcome _ _ hnode, Node.outcome, mapM_operandValue_eq_ok hlen hvalues]
  rfl

theorem all_error {r p : PromiseId} {operands : List Value} {e : Error}
    (hnode : nodes[r.index]? = some (.all operands)) (hp : .promise p ∈ operands)
    (he : den p = .error e) : den r = .error e := by
  have hagree := h.agrees operands (List.mem_of_getElem? hnode)
  rw [h.outcome _ _ hnode, Node.outcome, mapM_operandValue_eq_error hp he fun w hw e' he' =>
    hagree w hw (.promise p) hp e' e he' he]
  rfl

end Denotes

/-! ## One continuation more or less -/

theorem exists_of_isFor {id : GatherId} (h : isFor id k = true) : ∃ i, k = .gather id i := by
  cases k with
  | gather id' i => exact ⟨i, by rw [of_decide_eq_true h]⟩
  | _ => cases h

theorem Right.mono (hhas : ∀ {q}, s.Has q → s'.Has q) (hgathers : s.gathers.size ≤ s'.gathers.size)
    (h : Right den s p k) : Right den s' p k := by
  cases k with
  | adopt t => exact ⟨h.1, hhas h.2.1, h.2.2⟩
  | derive t f => exact ⟨h.1, hhas h.2.1, h.2.2⟩
  | gather id i => exact Nat.lt_of_lt_of_le h hgathers
  | notify f => trivial

theorem Feeds.mono (hgathers : ∀ (i : Nat) (g : Gather), s.gathers[i]? = some g →
    g.done = false → g.result = p → s'.gathers[i]? = some g) (h : Feeds s p k) : Feeds s' p k := by
  cases k with
  | gather id i =>
    obtain ⟨g, hg, hdone, hresult⟩ := h
    exact ⟨g, hgathers _ g hg hdone hresult, hdone, hresult⟩
  | _ => exact h

/-- What is not for a gather makes no difference to it. -/
theorem Collects.add_iff {id : GatherId} {g : Gather} {operands : List Value} {other : Flight}
    (hother : ∀ e ∈ other, isFor id e.2 = false) :
    Collects nodes den (flight + other) id g operands ↔ Collects nodes den flight id g operands := by
  have hmem : ∀ q i, (q, .gather id i) ∈ flight + other ↔ (q, .gather id i) ∈ flight := by
    intro q i
    rw [Multiset.mem_add, or_iff_left]
    intro hq
    simpa [isFor] using hother _ hq
  have hcount : (flight + other).countP (fun e => isFor id e.2) =
      flight.countP fun e => isFor id e.2 := by
    have hzero : other.countP (fun e => isFor id e.2) = 0 :=
      Multiset.countP_eq_zero.2 fun e he => by simp [hother e he]
    rw [Multiset.countP_add, hzero, Nat.add_zero]
  constructor
  · intro h
    exact ⟨h.node, h.length, hcount ▸ h.remaining, fun q i hq => h.place q i ((hmem q i).2 hq),
      fun i v hv => (h.filled i v hv).imp_left fun ⟨q, hq⟩ => ⟨q, (hmem q i).1 hq⟩⟩
  · intro h
    exact ⟨h.node, h.length, hcount ▸ h.remaining, fun q i hq => h.place q i ((hmem q i).1 hq),
      fun i v hv => (h.filled i v hv).imp_left fun ⟨q, hq⟩ => ⟨q, (hmem q i).2 hq⟩⟩

theorem Collects.cons_iff {id : GatherId} {g : Gather} {operands : List Value}
    (hk : isFor id k = false) :
    Collects nodes den ((p, k) ::ₘ flight) id g operands ↔
      Collects nodes den flight id g operands := by
  rw [← Multiset.singleton_add, add_comm]
  exact add_iff fun e he => by rwa [Multiset.mem_singleton.1 he]

/-- An operand comes in. -/
theorem Collects.fill {id : GatherId} {g : Gather} {operands : List Value} {i : Nat} {v : Value}
    (h : Collects nodes den ((p, .gather id i) ::ₘ flight) id g operands) (hv : den p = .ok v)
    (done : Bool) :
    Collects nodes den flight id
      { g with values := g.values.set i v, remaining := g.remaining - 1, done } operands where
  node := h.node
  length := by rw [List.length_set, h.length]
  remaining := by
    rw [h.remaining, Multiset.countP_cons_of_pos _ (by simp [isFor])]
    rfl
  place q j hq := h.place q j (Multiset.mem_cons_of_mem hq)
  filled j u hu := by
    have hi := h.place p i (Multiset.mem_cons_self ..)
    by_cases hji : j = i
    · subst hji
      have hlt : j < g.values.length := h.length ▸ (List.getElem?_eq_some_iff.1 hi).1
      refine .inr ⟨v, by rw [List.getElem?_set_self hlt], ?_⟩
      rw [Option.some.inj (hu.symm.trans hi)]
      exact hv
    · rw [List.getElem?_set_ne (fun he => hji he.symm)]
      refine (h.filled j u hu).imp_left fun ⟨q, hq⟩ => ⟨q, ?_⟩
      rcases Multiset.mem_cons.1 hq with he | hq
      · injection he with _ he
        injection he with _ he
        exact absurd he hji
      · exact hq

/-- Nothing is missing, so the tuple is there. -/
theorem Collects.outcome {id : GatherId} {g : Gather} {operands : List Value}
    (h : Collects nodes den flight id g operands) (hden : Denotes nodes den) (hr : g.remaining = 0) :
    den g.result = .ok (.tuple g.values) := by
  refine hden.all_ok h.node h.length fun i v hv => ?_
  rcases h.filled i v hv with ⟨q, hq⟩ | hw
  · have hnone := Multiset.countP_eq_zero.1 (h.remaining.symm.trans hr) _ hq
    simp [isFor] at hnone
  · exact hw

namespace OnTrack

/-- A continuation is used up, and what it was to settle is excused. -/
theorem consume (h : Tracked nodes den s ((p, k) ::ₘ flight)) (hk : ∀ id, isFor id k = false)
    (hfeeds : ∀ q, Feeds s q k → excused q) : OnTrack nodes den excused s flight where
  settled := h.settled
  right e he := h.right e (by rw [Multiset.add_cons]; exact Multiset.mem_cons_of_mem he)
  gathers id g hg hdone := by
    obtain ⟨hr, operands, hc⟩ := h.gathers id g hg hdone
    rw [Multiset.add_cons, Collects.cons_iff (hk id)] at hc
    exact ⟨hr, operands, hc⟩
  live q hq hpending hnode hexc := by
    obtain ⟨e, he, hfeed⟩ := h.live q hq hpending hnode id
    rw [Multiset.add_cons, Multiset.mem_cons] at he
    rcases he with rfl | he
    · exact absurd (hfeeds q hfeed) hexc
    · exact ⟨e, he, hfeed⟩

/-- A continuation comes in that feeds the promise that was excused. -/
theorem feed (h : OnTrack nodes den (· = t) s flight) (hk : ∀ id, isFor id k = false)
    (hp : s.Has p) (hright : Right den s p k) (hfeeds : Feeds s t k) :
    Tracked nodes den s ((p, k) ::ₘ flight) where
  settled := h.settled
  right e he := by
    rw [Multiset.add_cons, Multiset.mem_cons] at he
    rcases he with rfl | he
    · exact ⟨hp, hright⟩
    · exact h.right e he
  gathers id g hg hdone := by
    obtain ⟨hr, operands, hc⟩ := h.gathers id g hg hdone
    exact ⟨hr, operands, by rwa [Multiset.add_cons, Collects.cons_iff (hk id)]⟩
  live q hq hpending hnode _ := by
    rw [Multiset.add_cons]
    by_cases hqt : q = t
    · exact ⟨(p, k), Multiset.mem_cons_self .., hqt ▸ hfeeds⟩
    · obtain ⟨e, he, hfeed⟩ := h.live q hq hpending hnode hqt
      exact ⟨e, Multiset.mem_cons_of_mem he, hfeed⟩

/-- What is under way moves between the store and the flight. -/
theorem move (h : OnTrack nodes den excused s flight) (hunder : s'.waits + flight' = s.waits + flight)
    (hgathers : s'.gathers = s.gathers) (hsize : s'.promises.size = s.promises.size)
    (hsettled : ∀ p o, s'.outcome? p = some o → o = den p)
    (hpending : ∀ p, s'.outcome? p = none → s.outcome? p = none) :
    OnTrack nodes den excused s' flight' := by
  have hhas : ∀ q, s'.Has q ↔ s.Has q := fun q => by rw [Store.Has, Store.Has, hsize]
  refine ⟨hsettled, fun e he => ?_, fun id g hg hdone => ?_, fun p hp hnone hnode hexc => ?_⟩
  · obtain ⟨hp, hr⟩ := h.right e (hunder ▸ he)
    exact ⟨(hhas _).2 hp, hr.mono (fun {q} => (hhas q).2) (hgathers ▸ Nat.le_refl _)⟩
  · obtain ⟨hr, operands, hc⟩ := h.gathers id g (hgathers ▸ hg) hdone
    exact ⟨(hhas _).2 hr, operands, hunder ▸ hc⟩
  · obtain ⟨e, he, hfeed⟩ := h.live p ((hhas p).1 hp) (hpending p hnone) hnode hexc
    exact ⟨e, hunder ▸ he, hfeed.mono fun i g hg _ _ => hgathers ▸ hg⟩

theorem of_settled (h : OnTrack nodes den (· = t) s flight) {o : Outcome} (ht : s.outcome? t = some o) :
    Tracked nodes den s flight :=
  ⟨h.settled, h.right, h.gathers, fun q hq hpending hnode _ =>
    h.live q hq hpending hnode fun hqt => by
      rw [hqt, ht] at hpending
      cases hpending⟩

/-- The promise that was excused is settled. -/
theorem settle (h : OnTrack nodes den (· = t) s flight) {ks : List (Continuation PureHandler)}
    (hhas : s.Has t) (ht : s.state t = .pending ks) :
    Tracked nodes den (s.setState t (.ofOutcome (den t))) (Continuation.awaiting t ks + flight) := by
  have hself : (s.setState t (.ofOutcome (den t))).outcome? t = some (den t) := by
    rw [Store.outcome?, Store.state_setState_self hhas, PromiseState.outcome?_ofOutcome]
  refine of_settled (move h ?_ rfl (by simp [Store.setState]) (fun q o hq => ?_) fun q hq => ?_) hself
  · rw [← add_assoc, Store.waits_settle hhas ht]
  · by_cases hqt : q = t
    · subst hqt
      exact Option.some.inj (hq.symm.trans hself)
    · rw [Store.outcome?_setState_ne hqt] at hq
      exact h.settled q o hq
  · by_cases hqt : q = t
    · subst hqt
      rw [hself] at hq
      cases hq
    · rwa [Store.outcome?_setState_ne hqt] at hq

/-- A continuation in flight comes to wait. -/
theorem register (h : Tracked nodes den s ((p, k) ::ₘ flight)) {ks : List (Continuation PureHandler)}
    (hp : s.state p = .pending ks) :
    Tracked nodes den (s.setState p (.pending (ks ++ [k]))) flight := by
  have hhas : s.Has p := (h.right (p, k) (by simp)).1
  have hsame : ∀ q, (s.setState p (.pending (ks ++ [k]))).outcome? q = s.outcome? q := by
    intro q
    by_cases hqp : q = p
    · subst hqp
      rw [Store.outcome?, Store.outcome?, Store.state_setState_self hhas, hp]
      rfl
    · exact Store.outcome?_setState_ne hqp
  refine move h ?_ rfl (by simp [Store.setState]) (fun q o hq => h.settled q o (hsame q ▸ hq))
    fun q hq => hsame q ▸ hq
  rw [Store.waits_register hhas hp, Multiset.cons_add, Multiset.add_cons]

/-- A gather changes in such a way that its result stays fed, or is excused. -/
theorem setGather {id : GatherId} {i : Nat} {g g' : Gather}
    (h : Tracked nodes den s ((p, .gather id i) ::ₘ flight)) (hg : s.gathers[id.index]? = some g)
    (hs' : s' = { s with gathers := s.gathers.setIfInBounds id.index g' })
    (hresult : g'.result = g.result)
    (hcollects : g'.done = false → g.done = false ∧
      ∃ operands, Collects nodes den (s.waits + flight) id g' operands)
    (hfed : g.done = false → excused g.result ∨
      g'.done = false ∧ ∃ e ∈ s.waits + flight, isFor id e.2 = true) :
    OnTrack nodes den excused s' flight := by
  have hlt := (Array.getElem?_eq_some_iff.1 hg).1
  have hself : s'.gathers[id.index]? = some g' := by
    rw [hs', Array.getElem?_setIfInBounds_self_of_lt hlt]
  have hother : ∀ j, j ≠ id.index → s'.gathers[j]? = s.gathers[j]? := fun j hj => by
    rw [hs', Array.getElem?_setIfInBounds_ne (Ne.symm hj)]
  have hsize : s'.gathers.size = s.gathers.size := by rw [hs', Array.size_setIfInBounds]
  have hwaits : s'.waits = s.waits := by
    rw [hs']
    exact Store.waits_congr rfl fun _ => rfl
  have hout : ∀ q, s'.outcome? q = s.outcome? q := by rw [hs']; exact fun _ => rfl
  have hhas : ∀ q, s'.Has q ↔ s.Has q := by rw [hs']; exact fun _ => .rfl
  refine ⟨fun q o hq => h.settled q o (hout q ▸ hq), fun e he => ?_, fun id' g'' hg'' hdone => ?_,
    fun q hq hpending hnode hexc => ?_⟩
  · rw [hwaits] at he
    obtain ⟨hp, hr⟩ := h.right e (by rw [Multiset.add_cons]; exact Multiset.mem_cons_of_mem he)
    exact ⟨(hhas _).2 hp, hr.mono (fun {q} => (hhas q).2) hsize.ge⟩
  · rw [hwaits]
    by_cases hid : id' = id
    · subst hid
      obtain rfl := Option.some.inj (hself.symm.trans hg'')
      obtain ⟨hgdone, hc⟩ := hcollects hdone
      exact ⟨(hhas _).2 (hresult ▸ (h.gathers id' g hg hgdone).1), hc⟩
    · rw [hother _ fun he => hid (by cases id'; cases id; exact congrArg _ he)] at hg''
      obtain ⟨hr, operands, hc⟩ := h.gathers id' g'' hg'' hdone
      rw [Multiset.add_cons, Collects.cons_iff (by simp [isFor, Ne.symm hid])] at hc
      exact ⟨(hhas _).2 hr, operands, hc⟩
  · rw [hwaits]
    obtain ⟨e, he, hfeed⟩ := h.live q ((hhas q).1 hq) (hout q ▸ hpending) hnode (fun h => h)
    cases hk : isFor id e.2 with
    | true =>
      obtain ⟨j, hj⟩ := exists_of_isFor hk
      rw [hj] at hfeed
      obtain ⟨g₀, hg₀, hdone, rfl⟩ := hfeed
      obtain rfl := Option.some.inj (hg.symm.trans hg₀)
      rcases hfed hdone with hexc' | ⟨hdone', e', he', hk'⟩
      · exact absurd hexc' hexc
      · obtain ⟨j', hj'⟩ := exists_of_isFor hk'
        exact ⟨e', he', by rw [hj']; exact ⟨g', hself, hdone', hresult⟩⟩
    | false =>
      rw [Multiset.add_cons, Multiset.mem_cons] at he
      rcases he with rfl | he
      · simp [isFor] at hk
      · refine ⟨e, he, ?_⟩
        cases hk' : e.2 with
        | gather id' j =>
          rw [hk'] at hfeed hk
          obtain ⟨g₀, hg₀, hrest⟩ := hfeed
          refine ⟨g₀, ?_, hrest⟩
          rw [hother _ fun he => ?_, hg₀]
          have hid : id' = id := by cases id'; cases id; exact congrArg _ he
          simp [isFor, hid] at hk
        | _ =>
          rw [hk'] at hfeed
          exact hfeed

/-- An outcome is recorded in a gather. The gather stays on track, or it is completed with the right
outcome. -/
theorem record {id : GatherId} {i : Nat} (hden : Denotes nodes den)
    (h : Tracked nodes den s ((p, .gather id i) ::ₘ flight)) :
    let r := s.record id i (den p)
    (r.1 = none ∧ Tracked nodes den r.2 flight) ∨
      ∃ t, r.1 = some (t, den t) ∧ s.Has t ∧ OnTrack nodes den (· = t) r.2 flight := by
  have hid : id.index < s.gathers.size := (h.right (p, .gather id i) (by simp)).2
  obtain ⟨g, hg⟩ : ∃ g, s.gathers[id.index]? = some g := ⟨_, Array.getElem?_eq_getElem hid⟩
  simp only [Store.record, hg]
  cases hdone : g.done with
  | true =>
    simp only [Gather.record, hdone, if_true]
    exact .inl ⟨rfl, setGather h hg rfl rfl (fun h' => by simp [hdone] at h')
      (fun h' => by simp [hdone] at h')⟩
  | false =>
    obtain ⟨hr, operands, hc⟩ := h.gathers id g hg hdone
    rw [Multiset.add_cons] at hc
    cases hp : den p with
    | error e =>
      have hmem : .promise p ∈ operands :=
        List.mem_of_getElem? (hc.place p i (Multiset.mem_cons_self ..))
      simp only [Gather.record, hdone, Bool.false_eq_true, if_false]
      refine .inr ⟨g.result, ?_, hr, setGather h hg rfl rfl (fun h' => by simp at h')
        fun _ => .inl rfl⟩
      rw [hden.all_error hc.node hmem hp]
      rfl
    | ok v =>
      have hfill := hc.fill hp
      simp only [Gather.record, hdone, Bool.false_eq_true, if_false]
      by_cases hlast : g.remaining - 1 = 0
      · rw [if_pos hlast]
        refine .inr ⟨g.result, ?_, hr, setGather h hg rfl rfl (fun h' => by simp at h')
          fun _ => .inl rfl⟩
        rw [(hfill true).outcome hden hlast]
        rfl
      · rw [if_neg hlast]
        have hmore : 0 < (s.waits + flight).countP fun e => isFor id e.2 := by
          have hrem := (hfill false).remaining
          dsimp only at hrem
          omega
        refine .inl ⟨rfl, setGather h hg rfl rfl (fun _ => ⟨hdone, operands, hfill false⟩)
          fun _ => .inr ⟨rfl, ?_⟩⟩
        obtain ⟨e, he, hk⟩ := Multiset.countP_pos.1 hmore
        exact ⟨e, he, hk⟩

/-! ## Making promises -/

/-- A new promise is excused until something is to settle it. -/
theorem fresh (h : Tracked nodes den s flight) :
    OnTrack nodes den (· = s.fresh.1) s.fresh.2 flight := by
  have hhas : ∀ {q}, s.Has q → s.fresh.2.Has q := fun hq => Store.has_fresh.2 (.inl hq)
  have hout : ∀ q, s.fresh.2.outcome? q = s.outcome? q := fun q => by
    rw [Store.outcome?, Store.state_fresh, Store.outcome?]
  refine ⟨fun q o hq => h.settled q o (hout q ▸ hq), ?_, ?_, fun q hq hpending hnode hexc => ?_⟩
  · rw [Store.waits_fresh]
    exact fun e he => ⟨hhas (h.right e he).1, (h.right e he).2.mono hhas (Nat.le_refl _)⟩
  · rw [Store.waits_fresh]
    exact fun id g hg hdone => (h.gathers id g hg hdone).imp_left hhas
  · rw [Store.waits_fresh]
    obtain ⟨e, he, hfeed⟩ :=
      h.live q ((Store.has_fresh.1 hq).resolve_right hexc) (hout q ▸ hpending) hnode fun h => h
    exact ⟨e, he, hfeed.mono fun _ _ hg _ _ => hg⟩

/-- A source needs nothing to settle it. -/
theorem of_source (h : OnTrack nodes den (· = t) s flight) (ht : nodes[t.index]? = some .source) :
    Tracked nodes den s flight :=
  ⟨h.settled, h.right, h.gathers, fun q hq hpending hnode _ =>
    h.live q hq hpending hnode fun hqt => hnode (hqt ▸ ht)⟩

/-- The continuations that bring the operands of a new gather. -/
def gathering (id : GatherId) (awaited : List (Nat × PromiseId)) : Flight :=
  ↑(awaited.map fun x => ((x.2, .gather id x.1) : PromiseId × Continuation PureHandler))

theorem mem_gathering {id id' : GatherId} {i : Nat} {awaited : List (Nat × PromiseId)} :
    (p, .gather id' i) ∈ gathering id awaited ↔ id' = id ∧ (i, p) ∈ awaited := by
  simp only [gathering, Multiset.mem_coe, List.mem_map, Prod.mk.injEq, Continuation.gather.injEq]
  constructor
  · rintro ⟨x, hx, rfl, rfl, rfl⟩
    exact ⟨rfl, hx⟩
  · rintro ⟨rfl, hx⟩
    exact ⟨(i, p), hx, rfl, rfl, rfl⟩

/-- A gather that is new, with all its promises on their way. -/
theorem collects_new {operands : List Value} (ht : nodes[t.index]? = some (.all operands))
    {id : GatherId} (hnew : ∀ e ∈ flight, isFor id e.2 = false) :
    Collects nodes den (gathering id (Promise.places 0 operands) + flight) id
      ⟨operands, (Promise.places 0 operands).length, false, t⟩ operands := by
  rw [Collects.add_iff hnew]
  refine ⟨ht, rfl, ?_, fun q i hq => ?_, fun i v hv => ?_⟩
  · have hall : ∀ e ∈ gathering id (Promise.places 0 operands), isFor id e.2 = true := by
      intro e he
      obtain ⟨x, -, rfl⟩ := List.mem_map.1 (Multiset.mem_coe.1 he)
      simp [isFor]
    rw [Multiset.countP_eq_card.2 hall, gathering, Multiset.coe_card, List.length_map]
  · obtain ⟨l, rfl, hl⟩ := Promise.mem_places.1 (mem_gathering.1 hq).2
    rwa [Nat.zero_add]
  · cases v with
    | promise q =>
      exact .inl ⟨q, mem_gathering.2 ⟨rfl, Promise.mem_places.2 ⟨i, (Nat.zero_add i).symm, hv⟩⟩⟩
    | _ => exact .inr ⟨_, hv, rfl⟩

/-- A gather is started for the promise that was excused. -/
theorem addGather (h : OnTrack nodes den (· = t) s flight) (hscoped : Scoped nodes) (hhas : s.Has t)
    {operands : List Value} (ht : nodes[t.index]? = some (.all operands))
    (hne : Promise.places 0 operands ≠ []) :
    Tracked nodes den
      (s.addGather ⟨operands, (Promise.places 0 operands).length, false, t⟩).2
      (gathering ⟨s.gathers.size⟩ (Promise.places 0 operands) + flight) := by
  have hgathers : (s.addGather ⟨operands, (Promise.places 0 operands).length, false, t⟩).2.gathers =
      s.gathers.push ⟨operands, (Promise.places 0 operands).length, false, t⟩ := rfl
  have hunder : s.waits + (gathering ⟨s.gathers.size⟩ (Promise.places 0 operands) + flight) =
      gathering ⟨s.gathers.size⟩ (Promise.places 0 operands) + (s.waits + flight) := by
    ac_rfl
  refine ⟨h.settled, ?_, ?_, ?_⟩
  · rw [Store.waits_addGather, hunder]
    intro e he
    rcases Multiset.mem_add.1 he with he | he
    · obtain ⟨⟨i, q⟩, hx, rfl⟩ := List.mem_map.1 (Multiset.mem_coe.1 he)
      obtain ⟨l, -, hl⟩ := Promise.mem_places.1 hx
      exact ⟨Nat.lt_trans (hscoped _ _ ht q (List.mem_of_getElem? hl)) hhas, by
        simp [Right, hgathers]⟩
    · exact ⟨(h.right e he).1, Right.mono (s := s) (fun h => h) (by simp [hgathers]) (h.right e he).2⟩
  · rw [Store.waits_addGather, hunder, hgathers]
    intro id g hg hdone
    have hold : ∀ e ∈ s.waits + flight, isFor ⟨s.gathers.size⟩ e.2 = false := by
      intro e he
      by_contra hk
      obtain ⟨i, hi⟩ := exists_of_isFor (eq_true_of_ne_false hk)
      have hright := (h.right e he).2
      rw [hi] at hright
      exact Nat.lt_irrefl _ hright
    rw [Array.getElem?_push] at hg
    split at hg
    · rename_i hid
      obtain rfl := Option.some.inj hg
      obtain rfl : id = ⟨s.gathers.size⟩ := by cases id; exact congrArg _ hid
      exact ⟨hhas, operands, collects_new ht hold⟩
    · rename_i hid
      obtain ⟨hr, ops, hc⟩ := h.gathers id g hg hdone
      refine ⟨hr, ops, ?_⟩
      rw [add_comm, Collects.add_iff]
      · exact hc
      · intro e he
        obtain ⟨x, -, rfl⟩ := List.mem_map.1 (Multiset.mem_coe.1 he)
        exact decide_eq_false fun he' => hid (by rw [← he'])
  · rw [Store.waits_addGather, hunder]
    intro q hq hpending hnode _
    by_cases hqt : q = t
    · subst hqt
      obtain ⟨⟨i, p⟩, hx⟩ := List.exists_mem_of_ne_nil _ hne
      refine ⟨(p, .gather ⟨s.gathers.size⟩ i),
        Multiset.mem_add.2 (.inl (mem_gathering.2 ⟨rfl, hx⟩)), ?_⟩
      exact ⟨_, by rw [hgathers, Array.getElem?_push_size], rfl, rfl⟩
    · obtain ⟨e, he, hfeed⟩ := h.live q hq hpending hnode hqt
      refine ⟨e, Multiset.mem_add.2 (.inr he), hfeed.mono fun i g hg _ _ => ?_⟩
      rw [hgathers, Array.getElem?_push, if_neg (Nat.ne_of_lt (Array.getElem?_eq_some_iff.1 hg).1), hg]

/-! ## Settled sources settle everything -/

/-- Edges lead from promises that were made earlier to those that were made later. -/
theorem index_lt_of_feeds (h : OnTrack nodes den excused s flight) (hscoped : Scoped nodes)
    (hmem : (p, k) ∈ s.waits + flight) (hfeeds : Feeds s t k) : p.index < t.index := by
  have hright := (h.right _ hmem).2
  cases k with
  | adopt t' =>
    obtain rfl := hfeeds
    exact hright.1
  | derive t' f =>
    obtain rfl := hfeeds
    exact hright.1
  | gather id i =>
    obtain ⟨g, hg, hdone, rfl⟩ := hfeeds
    obtain ⟨-, operands, hc⟩ := h.gathers id g hg hdone
    exact hscoped _ _ hc.node p (List.mem_of_getElem? (hc.place p i hmem))
  | notify f => exact hfeeds.elim

/-- With nothing in flight and all sources settled, everything is settled, and rightly so. -/
theorem outcome? (h : Tracked nodes den s 0) (hscoped : Scoped nodes)
    (hsources : ∀ q, nodes[q.index]? = some .source → s.outcome? q ≠ none) :
    ∀ {i : Nat}, s.Has ⟨i⟩ → s.outcome? ⟨i⟩ = some (den ⟨i⟩) := by
  intro i
  induction i using Nat.strong_induction_on with
  | _ i ih =>
    intro hi
    cases ho : s.outcome? ⟨i⟩ with
    | some o => rw [h.settled ⟨i⟩ o ho]
    | none =>
      -- something waits for a promise that was made earlier, so that one would be pending too
      obtain ⟨⟨⟨j⟩, k⟩, he, hfeeds⟩ := h.live ⟨i⟩ hi ho (fun hs => hsources ⟨i⟩ hs ho) fun h => h
      have hj := ih j (h.index_lt_of_feeds hscoped he hfeeds) (h.right _ he).1
      rw [add_zero] at he
      obtain ⟨ks, hpending, -⟩ := Store.mem_waits.1 he
      rw [Store.outcome?, hpending] at hj
      cases hj

end OnTrack

end Network

end Deferral
