import Deferral.Proofs.Promise.Fence
import Deferral.Proofs.Threads.Tickets

/-!
# Every gather yields one outcome

While a gather is not done it misses operands, and each of them is somewhere: with a continuation that
waits, with a thread that is going to make one wait or to call it, or with a thread that is going to
record it. `outstanding` collects them from all these places as one multiset of `Share`s, and so a
step that only hands a share on leaves it as it is. What is left are the two steps that change it
(`Duty.deals`): a gather that is opened adds a share for each promise among its operands, and a record
uses one up. The count of missing operands is therefore never zero while something is recorded, and the
combined outcome comes with the last share or with the first failure (`Shares`).
-/

set_option autoImplicit false

namespace Deferral

variable {η σ : Type} {handle : η → Outcome → Routine η σ Outcome} {w : World η σ} {trace : Trace η}
  {d : Duty η σ} {effect : Effect η σ}

/-! ## What a step leaves as it was -/

/-- What was known before is known still, and the results of what is started are new. -/
structure Extends (s : Store η) (trace : Trace η) (s' : Store η) (trace' : Trace η) : Prop where
  has : ∀ p, s.Has p → s'.Has p
  outcome : ∀ p o, s.outcome? p = some o → s'.outcome? p = some o
  marks : ∀ mark ∈ trace, mark ∈ trace'
  results : ∀ id operands r, .gathering id operands r ∈ trace' → .gathering id operands r ∈ trace ∨
    trace' = .gathering id operands r :: trace ∧ ¬s.Has r ∧ s'.Has r

theorem Acts.extends (h : Acts w trace d effect) :
    Extends w.store trace effect.world.store (effect.marks ++ trace) := by
  have hmarks : ∀ mark ∈ trace, mark ∈ effect.marks ++ trace :=
    fun mark => List.mem_append_right _
  cases h with
  | @settles d p o ks hd hhas hks =>
    refine ⟨fun q => Store.has_setState.2, fun q o' ho' => ?_, hmarks, fun id operands r hmem => ?_⟩
    · refine (Store.outcome?_setState_ne ?_).trans ho'
      rintro rfl
      rw [Store.outcome?, hks] at ho'
      cases ho'
    · cases hmem with
      | tail _ hmem => exact .inl hmem
  | @waits p k ks hhas hks =>
    refine ⟨fun q => Store.has_setState.2, fun q o' ho' => ?_, hmarks, fun id operands r hmem => ?_⟩
    · exact (Store.outcome?_register_eq hks q).trans ho'
    · cases hmem with
      | tail _ hmem => exact .inl hmem
  | ready hhas ho =>
    refine ⟨fun _ hq => hq, fun _ _ ho' => ho', hmarks, fun id operands r hmem => ?_⟩
    cases hmem with
    | tail _ hmem => exact .inl hmem
  | calls hduties =>
    refine ⟨fun _ hq => hq, fun _ _ ho' => ho', hmarks, fun id operands r hmem => ?_⟩
    cases hmem with
    | tail _ hmem => exact .inl hmem
  | quiet h =>
    refine ⟨h.has, fun q o' ho' => ?_, hmarks, fun id operands r hmem => ?_⟩
    · rw [Store.outcome?, h.state]
      exact ho'
    · refine (List.mem_append.1 hmem).symm.imp_right fun hmem => ?_
      obtain ⟨hmarks, hnew⟩ := h.results id operands r hmem
      exact ⟨congrArg (· ++ trace) hmarks, hnew⟩

/-! ## What comes of operands -/

/-- What an operand stands for: a promise for its value, and any other value for itself. -/
def Store.Stands (s : Store η) : Value → Value → Prop
  | .promise p, v => s.outcome? p = some (.ok v)
  | v', v => v = v'

/-- What comes of operands: the tuple of what they stand for, each in its place, or the error of one of
them. -/
inductive Store.Gives (s : Store η) (operands : List Value) : Outcome → Prop
  | all (values : List Value) (h : List.Forall₂ s.Stands operands values) :
      s.Gives operands (.ok (.tuple values))
  | failure (p : PromiseId) (e : Error) (hp : .promise p ∈ operands)
      (he : s.outcome? p = some (.error e)) : s.Gives operands (.error e)

/-- A share in a gather: an operand that is still to come. -/
structure Share where
  gather : GatherId
  promise : PromiseId
  place : Nat

/-- The gather has the values of its operands, but for those that are still to come. -/
structure Store.Collects (s : Store η) (operands : List Value) (missing : Multiset Share)
    (g : Gather) : Prop where
  length : g.values.length = operands.length
  remaining : g.remaining = missing.card
  place : ∀ x ∈ missing, operands[x.place]? = some (.promise x.promise)
  filled : ∀ (i : Nat) (v : Value), operands[i]? = some v → (∃ x ∈ missing, x.place = i) ∨
    ∃ v', g.values[i]? = some v' ∧ s.Stands v v'

section

variable {s s' : Store η} {operands : List Value} {missing : Multiset Share} {g : Gather} {o : Outcome}
  (hs : ∀ p o, s.outcome? p = some o → s'.outcome? p = some o)

include hs in
theorem Store.Stands.mono {v v' : Value} (h : s.Stands v v') : s'.Stands v v' := by
  cases v with
  | promise p => exact hs p _ h
  | _ => exact h

include hs in
theorem Store.Gives.mono (h : s.Gives operands o) : s'.Gives operands o := by
  cases h with
  | all values h => exact .all values (h.imp fun _ _ => .mono hs)
  | failure p e hp he => exact .failure p e hp (hs p _ he)

include hs in
theorem Store.Collects.mono (h : s.Collects operands missing g) : s'.Collects operands missing g :=
  ⟨h.length, h.remaining, h.place, fun i v hv =>
    (h.filled i v hv).imp_right fun ⟨v', hv', hstands⟩ => ⟨v', hv', hstands.mono hs⟩⟩

theorem Store.Gives.concrete (h : s.Gives operands o) : Concrete o := by
  cases h with
  | all values => exact fun q hq => by cases hq
  | failure p e => exact concrete_error e

/-- Operands none of which is a promise stand for themselves. -/
theorem Store.gives_of_places (h : Promise.places 0 operands = []) :
    s.Gives operands (.ok (.tuple operands)) := by
  refine .all operands (List.forall₂_same.2 fun v hv => ?_)
  cases v with
  | promise p =>
    obtain ⟨i, hi⟩ := List.mem_iff_getElem?.1 hv
    have hplace : (i, p) ∈ Promise.places 0 operands :=
      Promise.mem_places.2 ⟨i, (Nat.zero_add i).symm, hi⟩
    rw [h] at hplace
    cases hplace
  | _ => rfl

/-- The value of an operand is put in its place. -/
theorem Store.Collects.fill {x : Share} {v : Value} (h : s.Collects operands (x ::ₘ missing) g)
    (hv : s.outcome? x.promise = some (.ok v)) (done : Bool) :
    s.Collects operands missing
      { g with values := g.values.set x.place v, remaining := g.remaining - 1, done } where
  length := by rw [List.length_set, h.length]
  remaining := by
    rw [h.remaining, Multiset.card_cons]
    rfl
  place y hy := h.place y (Multiset.mem_cons_of_mem hy)
  filled i u hu := by
    have hplace := h.place x (Multiset.mem_cons_self ..)
    by_cases hi : i = x.place
    · subst hi
      have hlt : x.place < g.values.length := h.length ▸ (List.getElem?_eq_some_iff.1 hplace).1
      refine .inr ⟨v, List.getElem?_set_self hlt, ?_⟩
      rw [Option.some.inj (hu.symm.trans hplace)]
      exact hv
    · rw [List.getElem?_set_ne (Ne.symm hi)]
      refine (h.filled i u hu).imp_left fun ⟨y, hy, hyi⟩ => ⟨y, ?_, hyi⟩
      refine (Multiset.mem_cons.1 hy).resolve_left ?_
      rintro rfl
      exact hi hyi.symm

/-- If nothing is missing, the tuple is there. -/
theorem Store.Collects.gives (h : s.Collects operands 0 g) :
    s.Gives operands (.ok (.tuple g.values)) := by
  refine .all _ (List.forall₂_iff_get.2 ⟨h.length.symm, fun i hi hi' => ?_⟩)
  rcases h.filled i _ (List.getElem?_eq_getElem hi) with ⟨x, hx, -⟩ | ⟨v, hv, hstands⟩
  · exact absurd hx (Multiset.notMem_zero _)
  · rw [List.getElem?_eq_getElem hi'] at hv
    rw [List.get_eq_getElem, List.get_eq_getElem, Option.some.inj hv]
    exact hstands

/-- A gather that has just been opened. -/
theorem Store.Collects.opened (id : GatherId) (result : PromiseId) :
    s.Collects operands
      ↑((Promise.places 0 operands).map fun x => (⟨id, x.2, x.1⟩ : Share))
      ⟨operands, (Promise.places 0 operands).length, false, result⟩ where
  length := rfl
  remaining := by rw [Multiset.coe_card, List.length_map]
  place x hx := by
    obtain ⟨⟨i, p⟩, hmem, rfl⟩ := List.mem_map.1 (Multiset.mem_coe.1 hx)
    obtain ⟨l, rfl, hl⟩ := Promise.mem_places.1 hmem
    exact (congrArg (operands[·]?) (Nat.zero_add l)).trans hl
  filled i v hv := by
    cases v with
    | promise p =>
      have hplace : (i, p) ∈ Promise.places 0 operands :=
        Promise.mem_places.2 ⟨i, (Nat.zero_add i).symm, hv⟩
      exact .inl ⟨_, Multiset.mem_coe.2 (List.mem_map_of_mem hplace), rfl⟩
    | _ => exact .inr ⟨_, hv, rfl⟩

end

/-! ## Where the shares are -/

/-- What a continuation brings to a gather. -/
def Continuation.shares (p : PromiseId) : Continuation η → Multiset Share
  | .gather id i => {⟨id, p, i⟩}
  | _ => 0

/-- What a thread is to bring to gathers. -/
def Duty.shares : Duty η σ → Multiset Share
  | .register p k => k.shares p
  | .watch id awaited => ↑(awaited.map fun x => (⟨id, x.2, x.1⟩ : Share))
  | .invoke ticket k _ => k.shares ticket.promise
  | .record p id i _ => {⟨id, p, i⟩}
  | _ => 0

/-- What waiting continuations bring to gathers. -/
def Store.shares (s : Store η) : Multiset Share := s.waits.bind fun x => x.2.shares x.1

/-- All that gathers are still to be given. -/
def outstanding (s : Store η) (D : Multiset (Duty η σ)) : Multiset Share := s.shares + D.bind Duty.shares

/-- Nothing that has to do with a gather. -/
def Mark.apart : Mark η → Bool
  | .gathering (some _) _ _ => false
  | .combined _ _ => false
  | _ => true

/-- A step that leaves the gathers as they are, and hands on what is outstanding. An outcome to be
recorded comes from a continuation that is called. -/
structure Apart (w : World η σ) (d : Duty η σ) (effect : Effect η σ) : Prop where
  gathers : effect.world.store.gathers = w.store.gathers
  shares : effect.world.store.shares + (effect.duties : Multiset (Duty η σ)).bind Duty.shares =
    w.store.shares + d.shares
  marks : ∀ mark ∈ effect.marks, mark.apart = true
  brings : ∀ p id i o, .record p id i o ∈ effect.duties → ∃ rank k, d = .invoke ⟨p, rank⟩ k o

/-- The store in which a gather for operands has just been opened. -/
def Store.opened (s : Store η) (operands : List Value) : Store η :=
  (s.fresh.2.addGather ⟨operands, (Promise.places 0 operands).length, false, s.fresh.1⟩).2

/-- What a step can do to gathers. -/
inductive Deals (w : World η σ) : Duty η σ → Effect η σ → Prop
  /-- A gather is opened. -/
  | opens {operands : List Value} {next : PromiseId → Routine η σ Outcome} {target : Option PromiseId}
      (hplaces : Promise.places 0 operands ≠ []) :
      Deals w (.perform (.all operands next) target)
        ⟨⟨w.store.opened operands, w.rest⟩,
          [.gathering (some ⟨w.store.gathers.size⟩) operands w.store.fresh.1],
          [.watch ⟨w.store.gathers.size⟩ (Promise.places 0 operands),
            .perform (next w.store.fresh.1) target]⟩
  /-- An outcome is put into a gather. -/
  | records {p : PromiseId} {id : GatherId} {i : Nat} {o : Outcome} :
      Deals w (.record p id i o)
        ⟨⟨(w.store.record id i o).2, w.rest⟩,
          (w.store.record id i o).1.toList.map fun f => .combined id f.2,
          (w.store.record id i o).1.toList.map fun f => .fulfil f.1 f.2⟩
  | apart {d : Duty η σ} {effect : Effect η σ} (h : Apart w d effect) : Deals w d effect

section

variable {p : PromiseId} {k : Continuation η} {ks : List (Continuation η)} {o : Outcome}

theorem Duty.shares_invocations (p : PromiseId) (ks : List (Continuation η)) (o : Outcome) :
    ((Duty.invocations p ks o : List (Duty η σ)) : Multiset (Duty η σ)).bind Duty.shares =
      (Continuation.awaiting p ks).bind fun x => x.2.shares x.1 := by
  have hks : (ks : Multiset (Continuation η)) =
      (ks.zipIdx : Multiset (Continuation η × Nat)).map Prod.fst := by
    rw [Multiset.map_coe, List.zipIdx_map_fst]
  rw [invocations, Continuation.awaiting, ← Multiset.map_coe, ← Multiset.map_coe, hks,
    Multiset.map_map, Multiset.bind_map, Multiset.bind_map]
  rfl

theorem Store.shares_settle {s : Store η} (hhas : s.Has p) (hks : s.state p = .pending ks)
    (o : Outcome) :
    (s.setState p (.ofOutcome o)).shares +
      ((Duty.invocations p ks o : List (Duty η σ)) : Multiset (Duty η σ)).bind Duty.shares =
      s.shares := by
  rw [Duty.shares_invocations, shares, shares, ← Multiset.add_bind, waits_settle hhas hks]

theorem Store.shares_register {s : Store η} (hhas : s.Has p) (hks : s.state p = .pending ks) :
    (s.setState p (.pending (ks ++ [k]))).shares = s.shares + k.shares p := by
  rw [shares, shares, waits_register hhas hks, Multiset.cons_bind, add_comm]

theorem Store.shares_fresh (s : Store η) : s.fresh.2.shares = s.shares := by
  rw [shares, waits_fresh, shares]

theorem Effect.settle_apart {o' : Outcome} (h : Effect.settle w p o' = some effect) :
    Apart w (.fulfil p o) effect := by
  unfold Effect.settle at h
  split at h
  · rename_i hhas
    obtain rfl := Option.some.inj h
    rcases Store.settle_cases p o' w.store with ⟨ks, hks, hs⟩ | ⟨o₁, ho₁, hs⟩
    · rw [hs]
      refine ⟨rfl, (Store.shares_settle hhas hks o').trans (add_zero _).symm, fun mark hmark => ?_,
        fun q id i o hmem => ?_⟩
      · split at hmark
        · obtain rfl := List.mem_singleton.1 hmark
          rfl
        · cases hmark
      · obtain ⟨_, _, heq, -⟩ := Duty.mem_invocations hmem
        cases heq
    · rw [hs]
      refine ⟨rfl, rfl, fun mark hmark => ?_, nofun⟩
      split at hmark
      · obtain rfl := List.mem_singleton.1 hmark
        rfl
      · cases hmark
  · cases h

theorem Effect.register_apart (h : Effect.register w trace p k = some effect) :
    Apart w (.register p k) effect := by
  unfold Effect.register at h
  split at h
  · rename_i hhas
    obtain rfl := Option.some.inj h
    rcases Store.register_cases p k w.store with ⟨ks, hks, hs⟩ | ⟨o, ho, hs⟩
    · rw [hs]
      exact ⟨rfl, (add_zero _).trans (Store.shares_register hhas hks), by simp [Mark.apart], nofun⟩
    · rw [hs]
      exact ⟨rfl, congrArg (w.store.shares + ·) (add_zero _), by simp [Mark.apart], by simp⟩
  · cases h

theorem Effect.perform_deals {r : Routine η σ Outcome} {target : Option PromiseId}
    (h : Effect.perform w target r = some effect) : Deals w (.perform r target) effect := by
  have hfresh := w.store.shares_fresh
  cases r with
  | done answer =>
    obtain rfl := Option.some.inj h
    refine .apart ⟨rfl, ?_, nofun, by simp⟩
    cases target <;> rfl
  | panic => cases h
  | onComplete p k next =>
    cases k with
    | notify h' =>
      obtain rfl := Option.some.inj h
      exact .apart ⟨rfl, rfl, nofun, by simp⟩
    | _ => cases h
  | all operands next =>
    unfold Effect.perform at h
    dsimp only at h
    split at h
    · obtain rfl := Option.some.inj h
      exact .apart ⟨rfl, congrArg (· + 0) hfresh, by simp [Mark.apart], by simp⟩
    · rename_i hplaces
      obtain rfl := Option.some.inj h
      exact .opens hplaces
  | fulfil p o next =>
    obtain rfl := Option.some.inj h
    exact .apart ⟨rfl, rfl, by simp [Mark.apart], by simp⟩
  | look next =>
    obtain rfl := Option.some.inj h
    exact .apart ⟨rfl, rfl, nofun, by simp⟩
  | change f next =>
    obtain rfl := Option.some.inj h
    exact .apart ⟨rfl, rfl, nofun, by simp⟩
  | _ =>
    obtain rfl := Option.some.inj h
    exact .apart ⟨rfl, congrArg (· + 0) hfresh, nofun, by simp⟩

theorem Duty.deals (h : d.act handle w trace = some effect) : Deals w d effect := by
  cases d with
  | perform r target => exact Effect.perform_deals h
  | fulfil p o =>
    rcases act_fulfil h with ⟨o', -, hsettle⟩ | ⟨q, rfl, hq, rfl⟩
    · exact .apart (Effect.settle_apart hsettle)
    · exact .apart ⟨rfl, rfl, nofun, by simp⟩
  | register p k => exact .apart (Effect.register_apart h)
  | watch id awaited =>
    cases awaited with
    | nil =>
      obtain rfl := Option.some.inj h
      exact .apart ⟨rfl, rfl, nofun, nofun⟩
    | cons x rest =>
      obtain rfl := Option.some.inj h
      refine .apart ⟨rfl, congrArg (w.store.shares + ·) ?_, nofun, by simp⟩
      rw [← Multiset.cons_coe, ← Multiset.cons_coe, Multiset.cons_bind, Multiset.cons_bind]
      exact (congrArg (shares _ + ·) (add_zero _)).trans (Multiset.singleton_add _ _)
  | invoke ticket k o =>
    obtain rfl := Option.some.inj h
    refine .apart ⟨rfl, congrArg (w.store.shares + ·) ?_, by simp [Mark.apart], fun p id i o' hmem => ?_⟩
    · cases k <;> rfl
    · cases k <;> simp at hmem
      obtain ⟨rfl, rfl, rfl, rfl⟩ := hmem
      exact ⟨ticket.rank, _, rfl⟩
  | record p id i o =>
    obtain rfl := Option.some.inj h
    exact .records

end

/-! ## The account of all shares -/

/-- What a gather is still to be given. -/
def missing (id : GatherId) (shares : Multiset Share) : Multiset Share :=
  shares.filter fun x => x.gather = id

/-- How far it has come with a gather: operands are missing, or it has yielded its one outcome. -/
inductive Standing (s : Store η) (trace : Trace η) (id : GatherId) (operands : List Value)
    (under : Multiset Share) (g : Gather) : Prop
  | gathering (hdone : g.done = false) (hcollects : s.Collects operands under g) (hmissing : under ≠ 0)
      (hnone : trace.combinations id = [])
  | gathered (o : Outcome) (hdone : g.done = true) (hgives : s.Gives operands o)
      (hone : trace.combinations id = [o])

/-- Where the shares are, and how far it has come with the gathers. -/
structure Shares (s : Store η) (trace : Trace η) (D : Multiset (Duty η σ)) : Prop where
  /-- Every gather has been opened for operands, and is as far as its shares say. -/
  standing : ∀ (id : GatherId) g, s.gathers[id.index]? = some g →
    ∃ operands, .gathering (some id) operands g.result ∈ trace ∧
      Standing s trace id operands (missing id (outstanding s D)) g
  unique : ∀ id operands result id' operands', .gathering id operands result ∈ trace →
    .gathering id' operands' result ∈ trace → id = id' ∧ operands = operands'
  made : ∀ id operands result, .gathering id operands result ∈ trace → s.Has result
  known : ∀ x ∈ outstanding s D, x.gather.index < s.gathers.size
  combined : ∀ (id : GatherId) o, .combined id o ∈ trace → id.index < s.gathers.size
  brought : ∀ p id i o, .record p id i o ∈ D → s.outcome? p = some o

section

variable {s s' : Store η} {D R : Multiset (Duty η σ)} {p : PromiseId} {o : Outcome} {id : GatherId}
  {i : Nat} {g : Gather} {operands : List Value} {under : Multiset Share}

theorem Standing.mono {trace' : Trace η} (hs : ∀ p o, s.outcome? p = some o → s'.outcome? p = some o)
    (htrace : trace'.combinations id = trace.combinations id)
    (h : Standing s trace id operands under g) :
    Standing s' trace' id operands under g := by
  cases h with
  | gathering hdone hcollects hmissing hnone =>
    exact .gathering hdone (hcollects.mono hs) hmissing (htrace.trans hnone)
  | gathered o hdone hgives hone => exact .gathered o hdone (hgives.mono hs) (htrace.trans hone)

/-- A share is used up. The last one, and the first failure, decide. -/
theorem Standing.record (h : Standing s trace id operands (⟨id, p, i⟩ ::ₘ under) g)
    (ho : s.outcome? p = some o) :
    (g.record i o).1.result = g.result ∧ (∀ c ∈ (g.record i o).2, s.Gives operands c) ∧
      Standing s ((g.record i o).2.toList.map (.combined id) ++ trace) id operands under
        (g.record i o).1 := by
  cases h with
  | gathered c hdone hgives hone =>
    rw [g.record_of_done i hdone o]
    exact ⟨rfl, nofun, .gathered c hdone hgives hone⟩
  | gathering hdone hcollects hmissing hnone =>
    have hone : ∀ c, Trace.combinations (.combined id c :: trace) id = [c] := by
      intro c
      have hmark : Mark.combined? id (.combined id c : Mark η) = some c := if_pos rfl
      exact (List.filterMap_cons_some hmark).trans (congrArg (c :: ·) hnone)
    cases o with
    | error e =>
      have hplace := hcollects.place _ (Multiset.mem_cons_self ..)
      have hgives : s.Gives operands (.error e) := .failure p e (List.mem_of_getElem? hplace) ho
      rw [g.record_error i hdone e]
      refine ⟨rfl, fun c hc => ?_, .gathered _ rfl hgives (hone _)⟩
      cases hc
      exact hgives
    | ok v =>
      by_cases hlast : g.remaining - 1 = 0
      · have hfilled := hcollects.fill ho true
        obtain rfl : under = 0 := Multiset.card_eq_zero.1 (hfilled.remaining.symm.trans hlast)
        rw [g.record_last i hdone hlast v]
        refine ⟨rfl, fun c hc => ?_, .gathered _ rfl hfilled.gives (hone _)⟩
        cases hc
        exact hfilled.gives
      · have hfilled := hcollects.fill ho false
        rw [g.record_more i hdone hlast v]
        refine ⟨rfl, nofun, .gathering rfl hfilled (fun hunder => hlast ?_) hnone⟩
        rw [hunder] at hfilled
        exact hfilled.remaining

theorem outstanding_cons (s : Store η) (d : Duty η σ) (D : Multiset (Duty η σ)) :
    outstanding s (d ::ₘ D) = d.shares + outstanding s D := by
  rw [outstanding, outstanding, Multiset.cons_bind]
  exact add_left_comm _ _ _

theorem Apart.outstanding_eq (h : Apart w d effect) (R : Multiset (Duty η σ)) :
    outstanding effect.world.store ((effect.duties : Multiset (Duty η σ)) + R) =
      outstanding w.store (d ::ₘ R) := by
  rw [outstanding, outstanding, Multiset.add_bind, ← add_assoc, h.shares, add_assoc,
    Multiset.cons_bind]

/-- The shares of the promises among operands. -/
theorem Share.gather_of_mem_places {x : Share}
    (h : x ∈ ((Promise.places 0 operands).map fun y => (⟨id, y.2, y.1⟩ : Share) : Multiset Share)) :
    x.gather = id := by
  obtain ⟨_, -, rfl⟩ := List.mem_map.1 (Multiset.mem_coe.1 h)
  rfl

theorem Store.gathers_opened (s : Store η) (operands : List Value) (id : GatherId) :
    (s.opened operands).gathers[id.index]? =
      if id = ⟨s.gathers.size⟩ then
        some ⟨operands, (Promise.places 0 operands).length, false, s.fresh.1⟩
      else s.gathers[id.index]? := by
  obtain ⟨i⟩ := id
  simp only [opened, addGather, fresh, Array.getElem?_push, GatherId.mk.injEq]

theorem outstanding_opened (s : Store η) (operands : List Value) (id : GatherId)
    (next : PromiseId → Routine η σ Outcome) (target : Option PromiseId) (R : Multiset (Duty η σ)) :
    outstanding (s.opened operands)
      (([.watch id (Promise.places 0 operands), .perform (next s.fresh.1) target] :
        List (Duty η σ)) + R : Multiset (Duty η σ)) =
        ↑((Promise.places 0 operands).map fun x => (⟨id, x.2, x.1⟩ : Share)) +
          outstanding s (.perform (.all operands next) target ::ₘ R) := by
  rw [outstanding_cons, outstanding, outstanding, Store.shares, Store.opened, Store.waits_addGather,
    Store.waits_fresh, Multiset.add_bind]
  have hduties : (([.watch id (Promise.places 0 operands), .perform (next s.fresh.1) target] :
      List (Duty η σ)) : Multiset (Duty η σ)).bind Duty.shares =
        ↑((Promise.places 0 operands).map fun x => (⟨id, x.2, x.1⟩ : Share)) := add_zero _
  have hnone : (Duty.perform (.all operands next) target : Duty η σ).shares = 0 := rfl
  rw [hduties, hnone, zero_add, Store.shares, add_left_comm]

theorem outstanding_record (s : Store η) (id : GatherId) (i : Nat) (o : Outcome)
    (R : Multiset (Duty η σ)) :
    outstanding (s.record id i o).2
      (((s.record id i o).1.toList.map fun f => (.fulfil f.1 f.2 : Duty η σ) : Multiset (Duty η σ)) +
        R) = outstanding s R := by
  rw [outstanding, outstanding, Store.shares, Store.waits_record, Multiset.add_bind]
  cases (s.record id i o).1 with
  | none => exact congrArg _ (zero_add _)
  | some f => exact congrArg _ (zero_add _)

theorem missing_add (id : GatherId) (T T' : Multiset Share) :
    missing id (T + T') = missing id T + missing id T' := Multiset.filter_add ..

theorem missing_self {T : Multiset Share} (h : ∀ x ∈ T, x.gather = id) : missing id T = T :=
  Multiset.filter_eq_self.2 h

theorem missing_other {T : Multiset Share} (h : ∀ x ∈ T, x.gather ≠ id) : missing id T = 0 :=
  Multiset.filter_eq_nil.2 h

theorem missing_record (id id' : GatherId) (p : PromiseId) (i : Nat) (o : Outcome) :
    missing id (Duty.record p id' i o : Duty η σ).shares = if id' = id then {⟨id', p, i⟩} else 0 := by
  split
  · exact missing_self fun x hx => by rwa [Multiset.mem_singleton.1 hx]
  · exact missing_other fun x hx => by rwa [Multiset.mem_singleton.1 hx]

theorem Apart.combinations (h : Apart w d effect) (trace : Trace η) (id : GatherId) :
    Trace.combinations (effect.marks ++ trace) id = trace.combinations id := by
  have hnone : effect.marks.filterMap (Mark.combined? id) = [] := by
    rw [List.filterMap_eq_nil_iff]
    intro mark hmark
    have hapart := h.marks mark hmark
    cases mark <;> first | rfl | cases hapart
  rw [Trace.combinations, Trace.combinations, List.filterMap_append, hnone, List.nil_append]

theorem Store.record_of_gather (hg : s.gathers[id.index]? = some g) (i : Nat) (o : Outcome) :
    s.record id i o = ((g.record i o).2.map fun c => ((g.record i o).1.result, c),
      { s with gathers := s.gathers.setIfInBounds id.index (g.record i o).1 }) := by
  rw [record, hg]

theorem Store.gathers_record (hg : s.gathers[id.index]? = some g) (i : Nat) (o : Outcome)
    (id' : GatherId) :
    (s.record id i o).2.gathers[id'.index]? =
      if id' = id then some (g.record i o).1 else s.gathers[id'.index]? := by
  rw [record_of_gather hg]
  split
  · rename_i hid
    rw [hid]
    exact Array.getElem?_setIfInBounds_self_of_lt (Array.getElem?_eq_some_iff.1 hg).1
  · rename_i hid
    exact Array.getElem?_setIfInBounds_ne fun he => hid (congrArg GatherId.mk he.symm)

theorem Trace.gathering_of_combined {cs : List Outcome} {id' : Option GatherId} {r : PromiseId}
    (h : .gathering id' operands r ∈ cs.map (.combined id : Outcome → Mark η) ++ trace) :
    .gathering id' operands r ∈ trace := by
  refine (List.mem_append.1 h).resolve_left fun hnew => ?_
  obtain ⟨_, -, heq⟩ := List.mem_map.1 hnew
  cases heq

theorem Trace.combinations_other {id' : GatherId} (hne : id ≠ id') (cs : List Outcome)
    (trace : Trace η) :
    Trace.combinations (cs.map (.combined id) ++ trace) id' = trace.combinations id' := by
  induction cs with
  | nil => rfl
  | cons c cs ih =>
    have hnone : Mark.combined? id' (.combined id c : Mark η) = none := if_neg hne
    exact (List.filterMap_cons_none hnone).trans ih

namespace Shares

/-- What is opened has a result of its own. -/
theorem unique_extends {trace' : Trace η} (h : Shares s trace D) (hx : Extends s trace s' trace')
    {id id' : Option GatherId} {operands operands' : List Value} {r : PromiseId}
    (hmem : .gathering id operands r ∈ trace') (hmem' : .gathering id' operands' r ∈ trace') :
    id = id' ∧ operands = operands' := by
  rcases hx.results _ _ _ hmem with hold | ⟨htrace, hnew, -⟩
  · rcases hx.results _ _ _ hmem' with hold' | ⟨-, hnew', -⟩
    · exact h.unique _ _ _ _ _ hold hold'
    · exact absurd (h.made _ _ _ hold) hnew'
  · rcases hx.results _ _ _ hmem' with hold' | ⟨htrace', -, -⟩
    · exact absurd (h.made _ _ _ hold') hnew
    · cases htrace.symm.trans htrace'
      exact ⟨rfl, rfl⟩

theorem made_extends {trace' : Trace η} (h : Shares s trace D) (hx : Extends s trace s' trace')
    {id : Option GatherId} {operands : List Value} {r : PromiseId}
    (hmem : .gathering id operands r ∈ trace') : s'.Has r := by
  rcases hx.results _ _ _ hmem with hold | ⟨-, -, hnew⟩
  · exact hx.has r (h.made _ _ _ hold)
  · exact hnew

/-- A step that has nothing to do with gathers. -/
theorem apart (h : Shares w.store trace (d ::ₘ R)) (hd : Apart w d effect)
    (hx : Extends w.store trace effect.world.store (effect.marks ++ trace))
    (hdue : ∀ ticket k o, d = .invoke ticket k o → w.store.outcome? ticket.promise = some o) :
    Shares effect.world.store (effect.marks ++ trace)
      ((effect.duties : Multiset (Duty η σ)) + R) where
  standing id g hg := by
    rw [hd.gathers] at hg
    obtain ⟨operands, hmem, hstanding⟩ := h.standing id g hg
    rw [hd.outstanding_eq]
    exact ⟨operands, hx.marks _ hmem, hstanding.mono hx.outcome (hd.combinations trace id)⟩
  unique _ _ _ _ _ := h.unique_extends hx
  made _ _ _ := h.made_extends hx
  known x hmem := by
    rw [hd.outstanding_eq] at hmem
    rw [hd.gathers]
    exact h.known x hmem
  combined id o hmem := by
    rw [hd.gathers]
    rcases List.mem_append.1 hmem with hmem | hmem
    · cases hd.marks _ hmem
    · exact h.combined id o hmem
  brought p id i o hmem := by
    rcases Multiset.mem_add.1 hmem with hmem | hmem
    · obtain ⟨rank, k, rfl⟩ := hd.brings p id i o hmem
      exact hx.outcome p o (hdue _ k o rfl)
    · exact hx.outcome p o (h.brought p id i o (Multiset.mem_cons_of_mem hmem))

/-- A gather is opened. -/
theorem opens {next : PromiseId → Routine η σ Outcome} {target : Option PromiseId} {new : GatherId}
    (h : Shares s trace (.perform (.all operands next) target ::ₘ R)) (hnew : new = ⟨s.gathers.size⟩)
    (hplaces : Promise.places 0 operands ≠ [])
    (hx : Extends s trace (s.opened operands) (.gathering (some new) operands s.fresh.1 :: trace)) :
    Shares (s.opened operands) (.gathering (some new) operands s.fresh.1 :: trace)
      (([.watch new (Promise.places 0 operands), .perform (next s.fresh.1) target] :
        List (Duty η σ)) + R : Multiset (Duty η σ)) := by
  have hsize : s.gathers.size < (s.opened operands).gathers.size := by
    simp [Store.opened, Store.addGather, Store.fresh]
  have hnone : Trace.combinations trace new = [] := by
    rw [Trace.combinations, List.filterMap_eq_nil_iff]
    intro mark hmark
    cases mark with
    | combined id o =>
      refine if_neg ?_
      rintro rfl
      exact absurd (h.combined id o hmark) (by simp [hnew])
    | _ => rfl
  refine ⟨fun id g hg => ?_, fun _ _ _ _ _ => h.unique_extends hx, fun _ _ _ => h.made_extends hx,
    fun x hmem => ?_, fun id o hmem => ?_, fun p id i o hmem => ?_⟩
  · rw [Store.gathers_opened, ← hnew] at hg
    rw [outstanding_opened, missing_add]
    by_cases hid : id = new
    · subst hid
      rw [if_pos rfl] at hg
      obtain rfl := Option.some.inj hg
      have hold : missing id (outstanding s (.perform (.all operands next) target ::ₘ R)) = 0 := by
        refine missing_other fun x hx hxid => absurd (h.known x hx) ?_
        rw [hxid, hnew]
        exact Nat.lt_irrefl _
      rw [hold, add_zero, missing_self fun x => Share.gather_of_mem_places]
      refine ⟨operands, .head _, .gathering rfl (.opened id _) ?_ hnone⟩
      exact fun hempty => hplaces (List.map_eq_nil_iff.1 ((Multiset.coe_eq_zero _).1 hempty))
    · rw [if_neg hid] at hg
      obtain ⟨operands', hmem, hstanding⟩ := h.standing id g hg
      have hothers : missing id
          ↑((Promise.places 0 operands).map fun x => (⟨new, x.2, x.1⟩ : Share)) = 0 :=
        missing_other fun x hx he => hid (he.symm.trans (Share.gather_of_mem_places hx))
      rw [hothers, zero_add]
      have htrace : Trace.combinations (.gathering (some new) operands s.fresh.1 :: trace) id =
          trace.combinations id := rfl
      exact ⟨operands', .tail _ hmem, hstanding.mono hx.outcome htrace⟩
  · rw [outstanding_opened] at hmem
    rcases Multiset.mem_add.1 hmem with hmem | hmem
    · rw [Share.gather_of_mem_places hmem, hnew]
      exact hsize
    · exact (h.known x hmem).trans hsize
  · cases hmem with
    | tail _ hmem => exact (h.combined id o hmem).trans hsize
  · have hmem : .record p id i o ∈ R := by simpa using hmem
    exact hx.outcome p o (h.brought p id i o (Multiset.mem_cons_of_mem hmem))

/-- The gather that an outcome is put into misses it. -/
theorem misses (h : Shares s trace (.record p id i o ::ₘ R)) :
    ∃ g operands, s.gathers[id.index]? = some g ∧ .gathering (some id) operands g.result ∈ trace ∧
      Standing s trace id operands (⟨id, p, i⟩ ::ₘ missing id (outstanding s R)) g := by
  have hid : id.index < s.gathers.size := h.known ⟨id, p, i⟩ (by
    rw [outstanding_cons]
    exact Multiset.mem_cons_self ..)
  obtain ⟨operands, hmem, hstanding⟩ := h.standing id _ (Array.getElem?_eq_getElem hid)
  rw [outstanding_cons, missing_add, missing_record, if_pos rfl, Multiset.singleton_add] at hstanding
  exact ⟨_, operands, Array.getElem?_eq_getElem hid, hmem, hstanding⟩

/-- An outcome is put into a gather. -/
theorem records (h : Shares s trace (.record p id i o ::ₘ R)) :
    (∀ f ∈ (s.record id i o).1, ∃ operands, .gathering (some id) operands f.1 ∈ trace ∧
      s.Gives operands f.2) ∧
    Shares (s.record id i o).2 ((s.record id i o).1.toList.map (fun f => .combined id f.2) ++ trace)
      (((s.record id i o).1.toList.map fun f => (.fulfil f.1 f.2 : Duty η σ) :
        Multiset (Duty η σ)) + R) := by
  obtain ⟨g, operands, hg, hmem, hstanding⟩ := h.misses
  obtain ⟨hresult, hgives, hstanding⟩ :=
    hstanding.record (h.brought p id i o (Multiset.mem_cons_self ..))
  have hrecord := Store.record_of_gather hg i o
  have hcons := outstanding_cons s (.record p id i o) R
  have hafter := outstanding_record s id i o R
  have hid : id.index < s.gathers.size := (Array.getElem?_eq_some_iff.1 hg).1
  have houtcome : ∀ q o', s.outcome? q = some o' → (s.record id i o).2.outcome? q = some o' :=
    fun q o' hq => (Store.outcome?_record id i o s q).trans hq
  have hmarks : (s.record id i o).1.toList.map (fun f => (.combined id f.2 : Mark η)) =
      (g.record i o).2.toList.map (.combined id) := by
    rw [hrecord]
    cases (g.record i o).2 <;> rfl
  have hsize : (s.record id i o).2.gathers.size = s.gathers.size := by
    rw [hrecord]
    exact Array.size_setIfInBounds
  rw [hmarks]
  refine ⟨fun f hf => ?_, fun id' g₁ hg₁ => ?_, fun id₁ ops r id₂ ops' h₁ h₂ =>
    h.unique id₁ ops r id₂ ops' (Trace.gathering_of_combined h₁) (Trace.gathering_of_combined h₂),
    fun id' ops r h₁ => Store.has_record.2 (h.made id' ops r (Trace.gathering_of_combined h₁)),
    fun x hx => ?_, fun id' o' hmem' => ?_,
    fun q id' j o' hmem' => houtcome _ _ (h.brought q id' j o' (Multiset.mem_cons_of_mem ?_))⟩
  · rw [hrecord] at hf
    obtain ⟨c, hc, rfl⟩ := Option.map_eq_some_iff.1 hf
    exact ⟨operands, hresult.symm ▸ hmem, hgives c hc⟩
  · rw [Store.gathers_record hg] at hg₁
    rw [hafter]
    by_cases hne : id' = id
    · subst hne
      rw [if_pos rfl] at hg₁
      obtain rfl := Option.some.inj hg₁
      exact ⟨operands, List.mem_append_right _ (hresult.symm ▸ hmem), hstanding.mono houtcome rfl⟩
    · rw [if_neg hne] at hg₁
      obtain ⟨ops, hmem', hstanding'⟩ := h.standing id' g₁ hg₁
      rw [hcons, missing_add, missing_record, if_neg (Ne.symm hne), zero_add] at hstanding'
      exact ⟨ops, List.mem_append_right _ hmem',
        hstanding'.mono houtcome (Trace.combinations_other (Ne.symm hne) _ trace)⟩
  · rw [hafter] at hx
    rw [hsize]
    refine h.known x ?_
    rw [hcons]
    exact Multiset.mem_add.2 (.inr hx)
  · rw [hsize]
    rcases List.mem_append.1 hmem' with hnew | hold
    · obtain ⟨_, -, heq⟩ := List.mem_map.1 hnew
      cases heq
      exact hid
    · exact h.combined id' o' hold
  · refine (Multiset.mem_add.1 hmem').resolve_left fun hnew => ?_
    obtain ⟨_, -, heq⟩ := List.mem_map.1 (Multiset.mem_coe.1 hnew)
    cases heq

/-- The account is kept by every step. -/
theorem act (h : Shares w.store trace (d ::ₘ R)) (ht : Tickets w.store trace (d ::ₘ R))
    (hact : d.act handle w trace = some effect) :
    Shares effect.world.store (effect.marks ++ trace)
      ((effect.duties : Multiset (Duty η σ)) + R) := by
  have hx := (Duty.acts hact).extends
  cases Duty.deals hact with
  | opens hplaces => exact h.opens rfl hplaces hx
  | records => exact h.records.2
  | apart hd =>
    refine h.apart hd hx fun ticket k o he => ?_
    exact (ht.due ticket k o (he ▸ Multiset.mem_cons_self ..)).outcome

end Shares

end

end Deferral
