import Deferral.Proofs.Promise.Track

/-!
# Networks compute their denotation

Each delivery uses up one continuation and leaves less to do than there was: an adoption where there
was a handler, nothing otherwise. So the nesting of cascades is bounded by the weight of what waits, and
`delivers` goes by induction on it. `perform_leads` follows a script action by action. When it is over,
nothing is in flight and all sources are settled, so everything is settled with what the denotation
says, whatever the order of the actions was (`computes_denotation`).
-/

set_option autoImplicit false

namespace Deferral

namespace Network

/-- How many deliveries a continuation can lead to by itself: the answer of a handler may have to be
adopted. -/
def weight : Continuation PureHandler → Nat
  | .adopt _ | .gather .. | .notify _ => 1
  | .derive .. => 2

def weigh (flight : Flight) : Nat := (flight.map fun e => weight e.2).sum

/-- The weight of all that waits. -/
def load (s : Store PureHandler) : Nat := weigh s.waits

/-- What a new node adds to the load. -/
def Node.weight : Node → Nat
  | .source => 0
  | .andThen .. | .map .. => 2
  | .all operands => (Promise.places 0 operands).length

theorem weigh_cons (p : PromiseId) (k : Continuation PureHandler) (flight : Flight) :
    weigh ((p, k) ::ₘ flight) = weight k + weigh flight := by
  rw [weigh, Multiset.map_cons, Multiset.sum_cons, weigh]

theorem weigh_add (a b : Flight) : weigh (a + b) = weigh a + weigh b := by
  rw [weigh, Multiset.map_add, Multiset.sum_add, weigh, weigh]

theorem weight_pos (k : Continuation PureHandler) : 0 < weight k := by
  cases k <;> exact Nat.succ_pos _

section Runs

variable {nodes : List Node} {den : PromiseId → Outcome} {s s' : Store PureHandler}
  {flight : Flight} {p t : PromiseId} {k : Continuation PureHandler} {n bound : Nat}

/-! ## What a computation leaves behind -/

/-- The store is on track with what is left in flight, within the bound, and nothing was lost. -/
structure After (nodes : List Node) (den : PromiseId → Outcome) (s : Store PureHandler) (bound : Nat)
    (flight : Flight) (s' : Store PureHandler) : Prop where
  track : Tracked nodes den s' flight
  load : load s' ≤ bound
  size : s'.promises.size = s.promises.size
  outcome? : ∀ p o, s.outcome? p = some o → s'.outcome? p = some o

/-- The computation comes to its end and leaves the store like that. -/
def Leads (nodes : List Node) (den : PromiseId → Outcome) (x : WorldM Halt PureHandler Unit Unit)
    (s : Store PureHandler) (bound : Nat) (flight : Flight) : Prop :=
  ∃ s', x ⟨s, ()⟩ = .ok () ⟨s', ()⟩ ∧ After nodes den s bound flight s'

namespace Leads

theorem pure (h : Tracked nodes den s flight) : Leads nodes den (pure ()) s (load s) flight :=
  ⟨s, rfl, h, Nat.le_refl _, rfl, fun _ _ h => h⟩

/-- A step on the store that keeps promises and outcomes may come first. -/
theorem after {x : WorldM Halt PureHandler Unit Unit} (h : Leads nodes den x s' bound flight)
    (hsize : s'.promises.size = s.promises.size)
    (hout : ∀ p o, s.outcome? p = some o → s'.outcome? p = some o) :
    ∃ s'', x ⟨s', ()⟩ = .ok () ⟨s'', ()⟩ ∧ After nodes den s bound flight s'' := by
  obtain ⟨s'', hx, h⟩ := h
  exact ⟨s'', hx, h.track, h.load, h.size.trans hsize, fun p o hp => h.outcome? p o (hout p o hp)⟩

theorem mono {x : WorldM Halt PureHandler Unit Unit} {bound' : Nat}
    (h : Leads nodes den x s bound flight) (hb : bound ≤ bound') :
    Leads nodes den x s bound' flight := by
  obtain ⟨s', hx, h⟩ := h
  exact ⟨s', hx, h.track, h.load.trans hb, h.size, h.outcome?⟩

theorem seq {x y : WorldM Halt PureHandler Unit Unit} {middle : Flight} {bound' : Nat}
    (hx : Leads nodes den x s bound middle)
    (hy : ∀ s', After nodes den s bound middle s' → Leads nodes den y s' bound' flight) :
    Leads nodes den (x >>= fun _ => y) s bound' flight := by
  obtain ⟨s₁, hx, h₁⟩ := hx
  obtain ⟨s₂, hy, h₂⟩ := (hy s₁ h₁).after h₁.size h₁.outcome?
  refine ⟨s₂, ?_, h₂⟩
  simp only [bind, EStateM.bind, hx, hy]

end Leads

/-! ## Operations -/

/-- Continuations run to their end, `n` levels deep. -/
def Delivers (nodes : List Node) (den : PromiseId → Outcome) (n : Nat) : Prop :=
  ∀ {s flight p k o}, s.outcome? p = some o → Tracked nodes den s ((p, k) ::ₘ flight) →
    load s + weight k ≤ n →
      Leads nodes den (Routine.deliver answer n k o) s (load s + weight k) flight

namespace Delivers

variable (hd : Delivers nodes den n)
include hd

theorem deliverAll {o : Outcome} : ∀ {ks : List (Continuation PureHandler)} {s : Store PureHandler},
    s.outcome? p = some o → Tracked nodes den s (Continuation.awaiting p ks + flight) →
    load s + weigh (Continuation.awaiting p ks) ≤ n →
    Leads nodes den (Promise.deliverAll (Routine.deliver answer n) ks o) s
      (load s + weigh (Continuation.awaiting p ks)) flight
  | [], s, _, h, _ => by
    refine (Leads.pure ?_).mono (Nat.le_add_right _ _)
    rwa [Continuation.awaiting, List.map_nil, Multiset.coe_nil, zero_add] at h
  | k :: ks, s, ho, h, hn => by
    have hsplit : Continuation.awaiting p (k :: ks) = (p, k) ::ₘ Continuation.awaiting p ks := rfl
    rw [hsplit, weigh_cons] at hn ⊢
    rw [hsplit, Multiset.cons_add] at h
    refine (hd ho h (by omega)).seq fun s' hs' => ?_
    have hload := hs'.load
    exact (deliverAll (hs'.outcome? p o ho) hs'.track (by omega)).mono (by omega)

/-- The promise that was excused is settled, if it is not already, and what waits for it is run. -/
theorem settle_some {o : Outcome} (h : OnTrack nodes den (· = t) s flight) (hhas : s.Has t)
    (ho : s.outcome? t = none → o = den t) (hn : load s ≤ n) :
    ∃ s', Promise.settle (Routine.deliver answer n) t o ⟨s, ()⟩ = .ok () ⟨s', ()⟩ ∧
      After nodes den s (load s) flight s' ∧ s'.outcome? t ≠ none := by
  rcases Store.settle_cases t o s with ⟨ks, ht, hs⟩ | ⟨o', ht, hs⟩
  · have hnone : s.outcome? t = none := by rw [Store.outcome?, ht]; rfl
    obtain rfl := ho hnone
    have hload : load (s.setState t (.ofOutcome (den t))) + weigh (Continuation.awaiting t ks) =
        load s := by
      rw [load, ← weigh_add, Store.waits_settle hhas ht, load]
    have hself : (s.setState t (.ofOutcome (den t))).outcome? t = some (den t) := by
      rw [Store.outcome?, Store.state_setState_self hhas, PromiseState.outcome?_ofOutcome]
    have hkeep : ∀ q o, s.outcome? q = some o →
        (s.setState t (.ofOutcome (den t))).outcome? q = some o := by
      intro q o hq
      have hs := Store.outcome?_settle (q := t) (den t) hq
      rwa [Store.settle_pending ht] at hs
    obtain ⟨s', hrun, hs'⟩ := hd.deliverAll hself (h.settle hhas ht) (by omega)
    refine ⟨s', ?_, ⟨hs'.track, hload ▸ hs'.load, hs'.size.trans (by simp [Store.setState]),
      fun q o hq => hs'.outcome? q o (hkeep q o hq)⟩, ?_⟩
    · simp only [Promise.settle, Promise.onStore, bind, EStateM.bind, hs]
      exact hrun
    · rw [hs'.outcome? t _ hself]
      exact Option.some_ne_none _
  · have hsome : s.outcome? t = some o' := by rw [Store.outcome?, ht, PromiseState.outcome?_ofOutcome]
    obtain ⟨s', hrun, hs'⟩ := Leads.pure (h.of_settled hsome)
    refine ⟨s', ?_, hs', ?_⟩
    · simp only [Promise.settle, Promise.onStore, bind, EStateM.bind, hs]
      exact hrun
    · rw [hs'.outcome? t o' hsome]
      exact Option.some_ne_none _

theorem settle {o : Outcome} (h : OnTrack nodes den (· = t) s flight) (hhas : s.Has t)
    (ho : s.outcome? t = none → o = den t) (hn : load s ≤ n) :
    Leads nodes den (Promise.settle (Routine.deliver answer n) t o) s (load s) flight := by
  obtain ⟨s', hrun, hs', -⟩ := hd.settle_some h hhas ho hn
  exact ⟨s', hrun, hs'⟩

theorem onComplete (h : Tracked nodes den s ((p, k) ::ₘ flight)) (hn : load s + weight k ≤ n) :
    Leads nodes den (Promise.onComplete (Routine.deliver answer n) p k) s (load s + weight k)
      flight := by
  rcases Store.register_cases p k s with ⟨ks, hp, hs⟩ | ⟨o, hp, hs⟩
  · have hhas : s.Has p := (h.right (p, k) (by simp)).1
    have hload : load (s.setState p (.pending (ks ++ [k]))) = load s + weight k := by
      rw [load, Store.waits_register hhas hp, weigh_cons, load]
      omega
    refine ⟨_, ?_, h.register hp, hload.le, by simp [Store.setState], fun q o hq => ?_⟩
    · simp only [Promise.onComplete, Promise.onStore, bind, EStateM.bind, hs]
      rfl
    · have hr := Store.outcome?_register k (q := p) hq
      rwa [hs] at hr
  · have ho : s.outcome? p = some o := by rw [Store.outcome?, hp, PromiseState.outcome?_ofOutcome]
    obtain ⟨s', hrun, hs'⟩ := hd ho h hn
    refine ⟨s', ?_, hs'⟩
    simp only [Promise.onComplete, Promise.onStore, bind, EStateM.bind, hs]
    exact hrun

/-- The promise that was excused is given an outcome, which may be a promise that was made earlier. -/
theorem fulfil {o : Outcome} (h : OnTrack nodes den (· = t) s flight) (hhas : s.Has t)
    (ho : den t = o.bind (operandValue den)) (hq : ∀ q, o = .ok (.promise q) → q.index < t.index)
    (hn : load s + 1 ≤ n) :
    Leads nodes den (Promise.fulfil (Routine.deliver answer n) t o) s (load s + 1) flight := by
  rcases concrete_or_promise o with hc | ⟨q, rfl⟩
  · rw [Promise.fulfil_concrete _ hc]
    refine (hd.settle h hhas (fun _ => ?_) (by omega)).mono (Nat.le_add_right _ _)
    rw [ho]
    cases o with
    | error e => rfl
    | ok v =>
      cases v with
      | promise q => exact absurd rfl (hc q)
      | _ => rfl
  · have hlt := hq q rfl
    have hne : q ≠ t := fun he => Nat.lt_irrefl _ (he ▸ hlt)
    rw [Promise.fulfil_other _ hne]
    exact hd.onComplete (h.feed (fun _ => rfl) (Nat.lt_trans hlt hhas) ⟨hlt, hhas, ho⟩ rfl) hn

theorem watch {id : GatherId} : ∀ {awaited : List (Nat × PromiseId)} {s : Store PureHandler},
    Tracked nodes den s (OnTrack.gathering id awaited + flight) → load s + awaited.length ≤ n →
    Leads nodes den (Promise.watch (Routine.deliver answer n) id awaited) s
      (load s + awaited.length) flight
  | [], s, h, _ => by
    refine (Leads.pure ?_).mono (Nat.le_add_right _ _)
    rwa [OnTrack.gathering, List.map_nil, Multiset.coe_nil, zero_add] at h
  | (i, p) :: rest, s, h, hn => by
    have hsplit : OnTrack.gathering id ((i, p) :: rest) =
      (p, .gather id i) ::ₘ OnTrack.gathering id rest := rfl
    rw [List.length_cons] at hn ⊢
    rw [hsplit, Multiset.cons_add] at h
    have hone : weight (.gather id i) = 1 := rfl
    refine (hd.onComplete h (by omega)).seq fun s' hs' => ?_
    have hload := hs'.load
    exact (watch hs'.track (by omega)).mono (by omega)

end Delivers

/-- Every continuation runs to its end, if the nesting may be as deep as there is load. -/
theorem delivers (hden : Denotes nodes den) : ∀ n, Delivers nodes den n
  | 0, s, flight, p, k, o, _, _, hn => by
    have := weight_pos k
    omega
  | n + 1, s, flight, p, k, o, ho, h, hn => by
    have hd : Delivers nodes den n := delivers hden n
    obtain rfl := h.settled p o ho
    have hright := (h.right (p, k) (by simp)).2
    cases k with
    | adopt t =>
      have htrack : OnTrack nodes den (· = t) s flight := h.consume (fun _ => rfl) fun q hq => hq.symm
      change Leads nodes den (Promise.fulfil (Routine.deliver answer n) t (den p)) s _ flight
      rw [Promise.fulfil_concrete _ (hden.concrete p)]
      exact (hd.settle htrack hright.2.1 (fun _ => hright.2.2.symm) (Nat.le_of_succ_le_succ hn)).mono
        (Nat.le_add_right _ _)
    | derive t f =>
      have htrack : OnTrack nodes den (· = t) s flight := h.consume (fun _ => rfl) fun q hq => hq.symm
      obtain ⟨-, hhas, hvalue, hanswer⟩ := hright
      exact (hd.fulfil htrack hhas hvalue hanswer (Nat.le_of_succ_le_succ hn)).mono (Nat.le_succ _)
    | gather id i =>
      obtain ⟨s', hrun, hs'⟩ : ∃ s', Routine.deliver answer (n + 1) (.gather id i) (den p) ⟨s, ()⟩ =
          .ok () ⟨s', ()⟩ ∧ After nodes den s (load s) flight s' := by
        have hload : load (s.record id i (den p)).2 = load s := by
          rw [load, Store.waits_record, load]
        have hout : ∀ q o, s.outcome? q = some o → (s.record id i (den p)).2.outcome? q = some o := by
          intro q o hq
          rw [Store.outcome?, Store.state_record, ← Store.outcome?, hq]
        have hsize := Store.size_record id i (den p) s
        simp only [Routine.deliver, Promise.deliverStep, Promise.onStore, bind, EStateM.bind]
        rcases h.record hden with ⟨hnone, htrack⟩ | ⟨t, hsome, hhas, htrack⟩
        · rw [hnone]
          exact hload ▸ (Leads.pure htrack).after hsize hout
        · rw [hsome]
          dsimp only
          rw [Promise.fulfil_concrete _ (hden.concrete t)]
          exact hload ▸ (hd.settle htrack (Store.has_record.2 hhas) (fun _ => rfl)
            (hload ▸ Nat.le_of_succ_le_succ hn)).after hsize hout
      exact Leads.mono ⟨s', hrun, hs'⟩ (Nat.le_add_right _ _)
    | notify f =>
      have htrack : Tracked nodes den s flight := h.consume (fun _ => rfl) fun _ hq => hq
      exact (Leads.pure htrack).mono (Nat.le_add_right _ _)

/-! ## Following a script -/

/-- Makes a node. -/
def make (n : Nat) : Node → WorldM Halt PureHandler Unit PromiseId
  | .source => Promise.new
  | .andThen p h => Promise.derive (Routine.deliver answer n) p h
  | .map p f => Promise.derive (Routine.deliver answer n) p (·.bind f)
  | .all operands => Promise.all (Routine.deliver answer n) operands

theorem perform_make (n : Nat) (node : Node) (rest : List Action) :
    (routine (.make node :: rest)).perform answer n =
      make n node >>= fun _ => (routine rest).perform answer n := by
  cases node <;> rfl

/-- A derived promise is made, and settled at once if that is possible. -/
theorem derive_leads (hden : Denotes nodes den) (h : Tracked nodes den s 0) {f : PureHandler}
    (hp : p.index < s.promises.size)
    (hvalue : den ⟨s.promises.size⟩ = (f (den p)).bind (operandValue den))
    (hanswer : ∀ q, f (den p) = .ok (.promise q) → q.index < s.promises.size)
    (hn : load s + 2 ≤ n) :
    ∃ q s', Promise.derive (Routine.deliver answer n) p f ⟨s, ()⟩ = .ok q ⟨s', ()⟩ ∧
      After nodes den s.fresh.2 (load s + 2) 0 s' := by
  have hload : load s.fresh.2 = load s := by rw [load, Store.waits_fresh, load]
  have htrack : Tracked nodes den s.fresh.2 ((p, .derive s.fresh.1 f) ::ₘ 0) :=
    h.fresh.feed (fun _ => rfl) (Store.has_fresh.2 (.inl hp))
      ⟨hp, Store.has_fresh.2 (.inr rfl), hvalue, hanswer⟩ rfl
  obtain ⟨s', hrun, hs'⟩ :=
    Delivers.onComplete (delivers hden n) htrack (by rw [hload]; exact hn)
  rw [hload] at hs'
  refine ⟨s.fresh.1, s', ?_, hs'⟩
  simp only [Promise.derive, Promise.new, Promise.onStore, bind, EStateM.bind, hrun]
  rfl

/-- A gathering promise is made, and settled at once if that is possible. -/
theorem all_leads (hden : Denotes nodes den) (h : Tracked nodes den s 0) {operands : List Value}
    (hnode : nodes[s.promises.size]? = some (.all operands))
    (hn : load s + (Promise.places 0 operands).length ≤ n) :
    ∃ q s', Promise.all (Routine.deliver answer n) operands ⟨s, ()⟩ = .ok q ⟨s', ()⟩ ∧
      After nodes den s.fresh.2 (load s + (Promise.places 0 operands).length) 0 s' := by
  have hload : load s.fresh.2 = load s := by rw [load, Store.waits_fresh, load]
  have hhas : s.fresh.2.Has s.fresh.1 := Store.has_fresh.2 (.inr rfl)
  cases hplaces : Promise.places 0 operands with
  | nil =>
    have hvalue : den s.fresh.1 = .ok (.tuple operands) := by
      refine hden.all_ok hnode rfl fun i v hv => ⟨v, hv, ?_⟩
      cases v with
      | promise q =>
        have hmem := Promise.mem_places.2 ⟨i, (Nat.zero_add i).symm, hv⟩
        rw [hplaces] at hmem
        cases hmem
      | _ => rfl
    obtain ⟨s', hrun, hs'⟩ := Delivers.settle (o := .ok (.tuple operands)) (delivers hden n) h.fresh
      hhas (fun _ => hvalue.symm) (by rw [hload]; omega)
    rw [hload] at hs'
    refine ⟨s.fresh.1, s', ?_, hs'⟩
    simp only [Promise.all, hplaces, Promise.settled, Promise.new, Promise.onStore, Promise.fulfil, bind,
      EStateM.bind, hrun]
    rfl
  | cons x rest =>
    have htrack := h.fresh.addGather hden.inScope hhas hnode
      (by rw [hplaces]; exact List.cons_ne_nil _ _)
    rw [hplaces] at htrack hn
    obtain ⟨s', hrun, hs'⟩ := (Delivers.watch (delivers hden n) htrack
      (by rw [load, Store.waits_addGather, ← load, hload]; exact hn)).after (s := s.fresh.2) rfl
      fun _ _ hq => hq
    rw [load, Store.waits_addGather, ← load, hload] at hs'
    refine ⟨s.fresh.1, s', ?_, hs'⟩
    simp only [Promise.all, hplaces, Promise.new, Promise.onStore, bind, EStateM.bind]
    simp only [Store.addGather, Store.fresh] at hrun ⊢
    rw [hrun]
    rfl

theorem make_leads (hden : Denotes nodes den) (h : Tracked nodes den s 0) {node : Node}
    (hnode : nodes[s.promises.size]? = some node) (hn : load s + node.weight ≤ n) :
    ∃ q s', make n node ⟨s, ()⟩ = .ok q ⟨s', ()⟩ ∧
      After nodes den s.fresh.2 (load s + node.weight) 0 s' := by
  have hscoped := hden.inScope _ _ hnode
  have hvalue := hden.outcome _ _ hnode
  cases node with
  | source =>
    refine ⟨s.fresh.1, s.fresh.2, rfl, h.fresh.of_source hnode, ?_, rfl, fun _ _ hq => hq⟩
    rw [load, Store.waits_fresh]
    exact Nat.le_refl _
  | andThen p f => exact derive_leads hden h hscoped.1 hvalue (hscoped.2 _) hn
  | map p f => exact derive_leads hden h hscoped.1 hvalue (fun q hq => hscoped.of_bind hq) hn
  | all operands => exact all_leads hden h hnode hn

/-- A script is followed to its end. Where it settles a pending promise, it does so with the outcome
that the promise should have. -/
theorem perform_leads (hden : Denotes nodes den) : ∀ {rest : List Action} {made : List Node}
    {s : Store PureHandler}, Follows made rest → made ++ Network.nodes rest = nodes →
    Tracked nodes den s 0 → s.promises.size = made.length →
    (∀ p o, s.outcome? p = none → settledWith p rest = some o → o = den p) →
    load s + ((Network.nodes rest).map Node.weight).sum ≤ n →
    ∃ s', (routine rest).perform answer n ⟨s, ()⟩ = .ok () ⟨s', ()⟩ ∧ Tracked nodes den s' 0 ∧
      s'.promises.size = nodes.length ∧
      ∀ p, s.outcome? p ≠ none ∨ settledWith p rest ≠ none → s'.outcome? p ≠ none
  | [], made, s, _, hmade, h, hsize, _, _ => by
    refine ⟨s, rfl, h, ?_, fun p hp => hp.resolve_right fun hne => hne rfl⟩
    rw [hsize, ← hmade]
    simp [Network.nodes]
  | .make node :: rest, made, s, hf, hmade, h, hsize, hfirst, hn => by
    have hsplit : made ++ [node] ++ Network.nodes rest = nodes := by
      rw [List.append_assoc]
      exact hmade
    have hnode : nodes[s.promises.size]? = some node := by
      rw [hsize, ← hsplit, List.getElem?_append_left (by simp), List.getElem?_concat_length]
    have hweight : ((Network.nodes (.make node :: rest)).map Node.weight).sum =
        node.weight + ((Network.nodes rest).map Node.weight).sum := rfl
    obtain ⟨q, s₁, hmake, h₁⟩ := make_leads hden h hnode (n := n) (by omega)
    have hout : ∀ p, s₁.outcome? p = none → s.outcome? p = none := by
      intro p hp
      cases ho : s.outcome? p with
      | none => rfl
      | some o =>
        rw [h₁.outcome? p o (by rw [Store.outcome?, Store.state_fresh, ← Store.outcome?, ho])] at hp
        cases hp
    have hload := h₁.load
    obtain ⟨s', hrun, htrack, hsize', hall⟩ := perform_leads hden hf.2 hsplit h₁.track
      (by rw [h₁.size, Store.fresh, Array.size_push, hsize, List.length_append]; rfl)
      (fun p o hp ho => hfirst p o (hout p hp) ho) (by omega)
    refine ⟨s', ?_, htrack, hsize', fun p hp => hall p (hp.imp_left fun hne hnone => hne (hout p hnone))⟩
    rw [perform_make]
    simp only [bind, EStateM.bind, hmake, hrun]
  | .settle q o :: rest, made, s, hf, hmade, h, hsize, hfirst, hn => by
    have hhas : s.Has q := by
      rw [Store.Has, hsize]
      exact (List.getElem?_eq_some_iff.1 hf.1).1
    have hvalue : s.outcome? q = none → o = den q := fun hq =>
      hfirst q o hq (by rw [settledWith, if_pos rfl])
    have hexcused : OnTrack nodes den (· = q) s 0 :=
      ⟨h.settled, h.right, h.gathers, fun p hp hnone hnode _ => h.live p hp hnone hnode fun h => h⟩
    obtain ⟨s₁, hsettle, h₁, hq⟩ := Delivers.settle_some (delivers hden n) hexcused hhas hvalue
      (Nat.le_trans (Nat.le_add_right _ _) hn)
    have hout : ∀ p, s₁.outcome? p = none → s.outcome? p = none := by
      intro p hp
      cases ho : s.outcome? p with
      | none => rfl
      | some o' =>
        rw [h₁.outcome? p o' ho] at hp
        cases hp
    have hother : ∀ p, p ≠ q → settledWith p (.settle q o :: rest) = settledWith p rest :=
      fun p hp => by rw [settledWith, if_neg (Ne.symm hp)]
    obtain ⟨s', hrun, htrack, hsize', hall⟩ := perform_leads hden hf.2.2 hmade h₁.track
      (h₁.size.trans hsize)
      (fun p o' hp ho => hfirst p o' (hout p hp) (by rwa [hother p fun he => hq (he ▸ hp)]))
      (Nat.le_trans (Nat.add_le_add_right h₁.load _) hn)
    refine ⟨s', ?_, htrack, hsize', fun p hp => ?_⟩
    · change (Promise.fulfil (Routine.deliver answer n) q o >>= fun _ =>
        (routine rest).perform answer n) ⟨s, ()⟩ = _
      rw [Promise.fulfil_concrete _ hf.2.1]
      simp only [bind, EStateM.bind, hsettle, hrun]
    · by_cases hpq : p = q
      · exact hall p (.inl (hpq ▸ hq))
      · rw [hother p hpq] at hp
        exact hall p (hp.imp_left fun hne hnone => hne (hout p hnone))

end Runs

/-! ## The outcomes of a network -/

theorem tracked_empty (nodes : List Node) (den : PromiseId → Outcome) : Tracked nodes den .empty 0 := by
  have hhas : ∀ p, ¬(Store.empty : Store PureHandler).Has p := fun p hp => by cases hp
  have hnone : ∀ p, (Store.empty : Store PureHandler).outcome? p = none := fun p => by
    rw [Store.outcome?, Store.state_of_not_has (hhas p)]
    rfl
  refine ⟨fun p o hp => ?_, fun e he => ?_, fun id g hg => ?_, fun p hp => absurd hp (hhas p)⟩
  · rw [hnone p] at hp
    cases hp
  · cases he
  · cases hg

section Script

variable {script : List Action} {sources : PromiseId → Outcome}

/-- The denotation of a script is a denotation of its nodes. -/
theorem denotes_denote (hwf : WellFormed script) (hsources : Settles script sources)
    (hagrees : Agrees (nodes script) (lookUp (denote sources (nodes script)))) :
    Denotes (nodes script) (lookUp (denote sources (nodes script))) where
  inScope := hwf.scoped
  outcome i node hnode := by
    cases node with
    | source => rfl
    | _ => exact lookUp_denote hwf.scoped hnode
  concrete := concrete_denote hwf.scoped fun p hp => (Follows.settledWith hwf (hsources p hp)).2
  agrees := hagrees

/-- A well-formed script that settles all sources comes to its end, and every promise has the outcome
that the denotation gives it. -/
theorem run_eq_ok (hwf : WellFormed script) (hsources : Settles script sources)
    (hagrees : Agrees (nodes script) (lookUp (denote sources (nodes script)))) {n : Nat}
    (hn : ((nodes script).map Node.weight).sum ≤ n) :
    ∃ s, run n script = .ok () ⟨s, ()⟩ ∧ s.promises.size = (nodes script).length ∧
      ∀ p, s.outcome? p = (denote sources (nodes script))[p.index]? := by
  have hden := denotes_denote hwf hsources hagrees
  have hsource : ∀ p, (nodes script)[p.index]? = some .source →
      lookUp (denote sources (nodes script)) p = sources p :=
    fun p hp => lookUp_denote hwf.scoped hp
  have hfirst : ∀ p o, (Store.empty : Store PureHandler).outcome? p = none →
      settledWith p script = some o → o = lookUp (denote sources (nodes script)) p := by
    intro p o _ ho
    have hp : (nodes script)[p.index]? = some .source := (Follows.settledWith hwf ho).1
    rw [hsource p hp]
    exact Option.some.inj (ho.symm.trans (hsources p hp))
  obtain ⟨s, hrun, htrack, hsize, hsettled⟩ :=
    perform_leads hden hwf rfl (tracked_empty _ _) rfl hfirst (n := n) (by
      rw [show load Store.empty = 0 from rfl, Nat.zero_add]
      exact hn)
  refine ⟨s, hrun, hsize, fun p => ?_⟩
  by_cases hp : p.index < (nodes script).length
  · have hhas : s.Has p := by rwa [Store.Has, hsize]
    rw [htrack.outcome? hwf.scoped (fun q hq => hsettled q (.inr ?_)) hhas, lookUp,
      List.getD_eq_getElem?_getD, List.getElem?_eq_getElem (by rwa [length_denote]), Option.getD_some]
    rw [hsources q hq]
    exact Option.some_ne_none _
  · have hhas : ¬s.Has p := by rwa [Store.Has, hsize]
    rw [Store.outcome?, Store.state_of_not_has hhas, List.getElem?_eq_none (by simpa using hp)]
    rfl

/-- A network of promises computes its denotation. However the making of its nodes and the settling of
its sources are interleaved, the script comes to its end, and when all sources are settled, every
promise has the outcome that is computed from theirs, if no gathering has operands that fail with
different errors. So the order of the settlements, and when the nodes are made, makes no difference. -/
theorem computes_denotation (hwf : WellFormed script) (hsources : Settles script sources)
    (hagrees : Agrees (nodes script) (lookUp (denote sources (nodes script)))) {n : Nat}
    (hn : ((nodes script).map Node.weight).sum ≤ n) :
    ∃ s, run n script = .ok () ⟨s, ()⟩ ∧ s.promises.size = (nodes script).length ∧
      (∀ p, s.outcome? p = (denote sources (nodes script))[p.index]?) ∧
      ∀ script', WellFormed script' → Settles script' sources → nodes script' = nodes script →
        ∃ s', run n script' = .ok () ⟨s', ()⟩ ∧ ∀ p, s'.outcome? p = s.outcome? p := by
  obtain ⟨s, hrun, hsize, hout⟩ := run_eq_ok hwf hsources hagrees hn
  refine ⟨s, hrun, hsize, hout, fun script' hwf' hsources' hnodes => ?_⟩
  rw [← hnodes] at hagrees hn
  obtain ⟨s', hrun', -, hout'⟩ := run_eq_ok hwf' hsources' hagrees hn
  exact ⟨s', hrun', fun p => by rw [hout p, hout' p, hnodes]⟩

end Script

/-- A gathering that fails and a handler that makes up for it with a promise, settled from the outside in
the middle of it. -/
def recovery : List Action :=
  [.make .source, .make .source, .make (.map ⟨0⟩ fun v => .ok (.tuple [v, v])),
    .make (.all [.promise ⟨2⟩, .int 7, .promise ⟨1⟩]), .settle ⟨1⟩ (.error .interrupted),
    .make (.andThen ⟨3⟩ fun _ => .ok (.promise ⟨2⟩)), .settle ⟨0⟩ (.ok (.int 1)),
    .make (.all [.promise ⟨4⟩, .promise ⟨2⟩])]

def recoverySources : PromiseId → Outcome
  | ⟨0⟩ => .ok (.int 1)
  | _ => .error .interrupted

theorem computes_denotation_recovery :
    WellFormed recovery ∧ Settles recovery recoverySources ∧
      Agrees (nodes recovery) (lookUp (denote recoverySources (nodes recovery))) ∧
      ∃ s, run 8 recovery = .ok () ⟨s, ()⟩ ∧
        s.outcome? ⟨5⟩ = some (.ok (.tuple [.tuple [.int 1, .int 1], .tuple [.int 1, .int 1]])) := by
  have hwf : WellFormed recovery := by
    simp [WellFormed, recovery, Follows, Node.Scoped, Concrete]
  have hsources : Settles recovery recoverySources := by
    rintro ⟨_ | _ | _ | _ | _ | _ | i⟩ hi <;> first | rfl | cases hi
  have hagrees : Agrees (nodes recovery) (lookUp (denote recoverySources (nodes recovery))) := by
    have hden : denote recoverySources (nodes recovery) = [.ok (.int 1), .error .interrupted,
      .ok (.tuple [.int 1, .int 1]), .error .interrupted, .ok (.tuple [.int 1, .int 1]),
      .ok (.tuple [.tuple [.int 1, .int 1], .tuple [.int 1, .int 1]])] := rfl
    have herror : ∀ v e, operandValue (lookUp (denote recoverySources (nodes recovery))) v = .error e →
        e = .interrupted := by
      intro v e he
      rw [hden] at he
      cases v with
      | promise p =>
        rcases p with ⟨_ | _ | _ | _ | _ | _ | i⟩ <;> cases he <;> rfl
      | _ => cases he
    intro operands _ v _ w _ e e' he he'
    rw [herror v e he, herror w e' he']
  obtain ⟨s, hrun, -, hout, -⟩ := computes_denotation (n := 8) hwf hsources hagrees (by decide)
  exact ⟨hwf, hsources, hagrees, s, hrun, hout ⟨5⟩⟩

end Network

end Deferral
