import Mathlib.Data.List.Forall2
import Deferral.Proofs.Module.Relabel
import Deferral.Proofs.Promise.Steps

/-!
# Machines with their code relabelled

Two stores are related if their promises and gathers are, and only their handlers may differ
(`Store.Rel`); each step on the store does the same to both. The code of a function is relabelled by the
module that the function was declared in (`Function.relabel`), also when the function has lost it.
Nothing that evaluation or a host can look at depends on how the names in code are written; so texts and
snapshots stay the same (`Directory.labels_relabel`, `Directory.snapshot_relabel`).
-/

set_option autoImplicit false

namespace Deferral

/-! ## Stores with other handlers -/

section

variable {η θ : Type} {r : η → θ → Prop}

/-- The continuations do the same, with handlers that are related. -/
inductive Continuation.Rel (r : η → θ → Prop) : Continuation η → Continuation θ → Prop
  | adopt (target : PromiseId) : Rel r (.adopt target) (.adopt target)
  | derive (target : PromiseId) {h : η} {h' : θ} (hr : r h h') :
      Rel r (.derive target h) (.derive target h')
  | gather (id : GatherId) (place : Nat) : Rel r (.gather id place) (.gather id place)
  | notify {h : η} {h' : θ} (hr : r h h') : Rel r (.notify h) (.notify h')

/-- The same outcome, or continuations that are related one by one. -/
inductive PromiseState.Rel (r : η → θ → Prop) : PromiseState η → PromiseState θ → Prop
  | pending {ks : List (Continuation η)} {ks' : List (Continuation θ)}
      (hks : List.Forall₂ (Continuation.Rel r) ks ks') : Rel r (.pending ks) (.pending ks')
  | settled (o : Outcome) : Rel r (.ofOutcome o) (.ofOutcome o)

namespace PromiseState.Rel

variable {st : PromiseState η} {st' : PromiseState θ}

theorem outcome? (h : Rel r st st') : st'.outcome? = st.outcome? := by
  cases h with
  | pending _ => rfl
  | settled o => rw [outcome?_ofOutcome, outcome?_ofOutcome]

theorem isPending (h : Rel r st st') : st'.isPending = st.isPending := by
  cases h with
  | pending _ => rfl
  | settled o => cases o <;> rfl

end PromiseState.Rel

/-- The stores are the same but for handlers, which are related. -/
structure Store.Rel (r : η → θ → Prop) (s : Store η) (s' : Store θ) : Prop where
  size : s'.promises.size = s.promises.size
  state : ∀ p, PromiseState.Rel r (s.state p) (s'.state p)
  gathers : s'.gathers = s.gathers

namespace Store.Rel

variable {s : Store η} {s' : Store θ} (h : s.Rel r s')
include h

theorem outcome? : s'.outcome? = s.outcome? := funext fun p => (h.state p).outcome?

theorem isPending (p : PromiseId) : s'.isPending p = s.isPending p := (h.state p).isPending

theorem has {p : PromiseId} : s'.Has p ↔ s.Has p := by rw [Has, Has, h.size]

theorem setState (p : PromiseId) {st : PromiseState η} {st' : PromiseState θ}
    (hst : PromiseState.Rel r st st') : (s.setState p st).Rel r (s'.setState p st') where
  size := by simpa [Store.setState] using h.size
  gathers := h.gathers
  state q := by
    by_cases hhas : s.Has p
    · by_cases hq : q = p
      · subst hq
        rwa [state_setState_self hhas, state_setState_self (h.has.2 hhas)]
      · rw [state_setState_ne hq, state_setState_ne hq]
        exact h.state q
    · -- nothing is changed beyond the promises that there are
      have hnot' : ¬s'.Has p := mt h.has.1 hhas
      have hsame : s.setState p st = s := by
        rw [Store.setState, Array.setIfInBounds_eq_of_size_le (Nat.not_lt.1 hhas)]
      have hsame' : s'.setState p st' = s' := by
        rw [Store.setState, Array.setIfInBounds_eq_of_size_le (Nat.not_lt.1 hnot')]
      rw [hsame, hsame']
      exact h.state q

theorem fresh : s'.fresh.1 = s.fresh.1 ∧ s.fresh.2.Rel r s'.fresh.2 := by
  refine ⟨congrArg PromiseId.mk h.size, ?_, fun p => ?_, h.gathers⟩
  · simpa [Store.fresh] using h.size
  · rw [state_fresh, state_fresh]
    exact h.state p

theorem register (p : PromiseId) {k : Continuation η} {k' : Continuation θ}
    (hk : Continuation.Rel r k k') :
    (s'.register p k').1 = (s.register p k).1 ∧ (s.register p k).2.Rel r (s'.register p k').2 := by
  unfold Store.register
  generalize hst : s.state p = st, hst' : s'.state p = st'
  have hrel := h.state p
  rw [hst, hst'] at hrel
  cases hrel with
  | pending hks =>
    exact ⟨rfl, h.setState p (.pending (List.rel_append hks (.cons hk .nil)))⟩
  | settled o => cases o <;> exact ⟨rfl, h⟩

theorem settle (p : PromiseId) (o : Outcome) :
    List.Forall₂ (Continuation.Rel r) (s.settle p o).1 (s'.settle p o).1 ∧
      (s.settle p o).2.Rel r (s'.settle p o).2 := by
  unfold Store.settle
  generalize hst : s.state p = st, hst' : s'.state p = st'
  have hrel := h.state p
  rw [hst, hst'] at hrel
  cases hrel with
  | pending hks => exact ⟨hks, h.setState p (.settled o)⟩
  | settled o' => cases o' <;> exact ⟨.nil, h⟩

theorem addGather (g : Gather) :
    (s'.addGather g).1 = (s.addGather g).1 ∧ (s.addGather g).2.Rel r (s'.addGather g).2 := by
  refine ⟨congrArg (fun gathers => GatherId.mk gathers.size) h.gathers, h.size, h.state, ?_⟩
  exact congrArg (·.push g) h.gathers

theorem record (id : GatherId) (place : Nat) (o : Outcome) :
    (s'.record id place o).1 = (s.record id place o).1 ∧
      (s.record id place o).2.Rel r (s'.record id place o).2 := by
  unfold Store.record
  rw [h.gathers]
  cases s.gathers[id.index]? with
  | none => exact ⟨rfl, h⟩
  | some g => exact ⟨rfl, h.size, h.state, rfl⟩

end Store.Rel

theorem Continuation.Rel.refl {r : η → η → Prop} (hr : ∀ h, r h h) (k : Continuation η) : Rel r k k := by
  cases k with
  | adopt target => exact .adopt target
  | derive target h => exact .derive target (hr h)
  | gather id place => exact .gather id place
  | notify h => exact .notify (hr h)

theorem Continuation.Rel.eq {r : η → η → Prop} (hr : ∀ h h', r h h' → h' = h) {k k' : Continuation η}
    (hk : Rel r k k') : k' = k := by
  cases hk with
  | adopt target => rfl
  | derive target h => rw [hr _ _ h]
  | gather id place => rfl
  | notify h => rw [hr _ _ h]

theorem PromiseState.Rel.eq {r : η → η → Prop} (hr : ∀ h h', r h h' → h' = h)
    {st st' : PromiseState η} (h : Rel r st st') : st' = st := by
  cases h with
  | settled o => rfl
  | pending hks =>
    have heq := hks.imp fun _ _ hk => (hk.eq hr).symm
    rw [List.forall₂_eq_eq_eq] at heq
    rw [heq]

theorem Store.Rel.refl {r : η → η → Prop} (hr : ∀ h, r h h) (s : Store η) : s.Rel r s where
  size := rfl
  gathers := rfl
  state p := by
    rcases (s.state p).pending_or_ofOutcome with ⟨ks, hks⟩ | ⟨o, ho⟩
    · rw [hks]
      exact .pending (List.forall₂_same.2 fun k _ => .refl hr k)
    · rw [ho]
      exact .settled o

/-- Stores with equal handlers are equal. -/
theorem Store.Rel.eq {r : η → η → Prop} (hr : ∀ h h', r h h' → h' = h) {s s' : Store η}
    (h : s.Rel r s') : s' = s := by
  have hpromises : s'.promises = s.promises := by
    refine Array.ext h.size fun i hi hi' => ?_
    have hstate := (h.state ⟨i⟩).eq hr
    simpa only [Store.state, Array.getElem?_eq_getElem hi, Array.getElem?_eq_getElem hi',
      Option.getD_some] using hstate
  cases s
  cases s'
  exact congrArg₂ Store.mk hpromises h.gathers

end

/-! ## Functions -/

section

variable (label : Labelling) (owner : Option ModuleName)

def FunctionBody.relabel : FunctionBody → FunctionBody
  | .code params body => .code params (body.relabel label owner)
  | .native operation arity => .native operation arity

/-- The name of the module that a function was declared in. -/
def Function.home (f : Function) : Option ModuleName := f.module.map (·.name)

namespace Function

variable (f : Function)

/-- The function with its code relabelled as that of an owner. -/
def relabelAs : Function := { f with body := f.body.relabel label owner }

/-- Relabels the code of a function, which is owned by the module it was declared in. -/
def relabel : Function := f.relabelAs label f.home

@[simp] theorem module_relabelAs : (f.relabelAs label owner).module = f.module := rfl

@[simp] theorem captures_relabelAs : (f.relabelAs label owner).captures = f.captures := rfl

@[simp] theorem name_relabelAs : (f.relabelAs label owner).name = f.name := rfl

@[simp] theorem qualifiedName_relabelAs :
    (f.relabelAs label owner).qualifiedName = f.qualifiedName := rfl

@[simp] theorem params_relabelAs : (f.relabelAs label owner).params = f.params := by
  obtain ⟨name, body, captures, module⟩ := f
  cases body <;> rfl

@[simp] theorem arity_relabelAs : (f.relabelAs label owner).arity = f.arity := by
  obtain ⟨name, body, captures, module⟩ := f
  cases body <;> rfl

@[simp] theorem isNative_relabelAs : (f.relabelAs label owner).isNative = f.isNative := by
  obtain ⟨name, body, captures, module⟩ := f
  cases body <;> rfl

theorem relabel_plain : f.relabel .plain = f := by
  obtain ⟨name, body, captures, module⟩ := f
  cases body with
  | code params body => simp only [relabel, relabelAs, FunctionBody.relabel, Expr.relabel_plain]
  | native operation arity => rfl

end Function

end

/-! ## Directories -/

section

variable (label : Labelling) (owner : FunctionId → Option ModuleName)

namespace Directory

/-- What the identities stand for when the code of functions is relabelled, each as that of an owner. -/
def relabel (d : Directory) : Directory :=
  { d with function? := fun id => (d.function? id).map (Function.relabelAs label (owner id)) }

variable (d : Directory)

theorem functionLabel_relabel : (d.relabel label owner).functionLabel = d.functionLabel := by
  funext id
  simp only [functionLabel, relabel]
  cases d.function? id with
  | none => rfl
  | some f => simp only [Option.map_some, Function.label, Function.isNative_relabelAs,
      Function.qualifiedName_relabelAs, Function.arity_relabelAs]

theorem ends_relabel (n : Nat) : (d.relabel label owner).ends n = d.ends n := by
  induction n with
  | zero => rfl
  | succ n ih =>
    funext p
    simp only [ends, ih]
    rfl

theorem legible_relabel : (d.relabel label owner).legible = d.legible := by
  funext inside
  simp only [legible, ends_relabel]
  rfl

theorem promiseLabel_relabel (n : Nat) :
    (d.relabel label owner).promiseLabel n = d.promiseLabel n := by
  induction n with
  | zero => rfl
  | succ n ih =>
    funext p
    simp only [promiseLabel, functionLabel_relabel, ih]
    rfl

/-- No text shows how a qualified name is written in the code. -/
theorem labels_relabel : (d.relabel label owner).labels = d.labels := by
  simp only [labels, functionLabel_relabel, ends_relabel, promiseLabel_relabel]
  rfl

theorem quoted?_relabel : (d.relabel label owner).quoted? = d.quoted? := by
  funext v
  simp only [quoted?, legible_relabel, labels_relabel]

theorem triple?_relabel : (d.relabel label owner).triple? = d.triple? := by
  funext fallback e
  simp only [triple?, legible_relabel, labels_relabel]

theorem holdsUnordered_relabel (n : Nat) :
    (d.relabel label owner).holdsUnordered n = d.holdsUnordered n := by
  induction n with
  | zero => rfl
  | succ n ih =>
    funext p
    simp only [holdsUnordered, ih]
    rfl

theorem unordered_relabel : (d.relabel label owner).unordered = d.unordered := by
  funext v
  simp only [unordered, holdsUnordered_relabel]
  rfl

end Directory

theorem Snapshot.ofFunction_relabel (id : FunctionId) (owner : Option ModuleName)
    (f : Option Function) :
    ofFunction id (f.map (Function.relabelAs label owner)) = ofFunction id f := by
  cases f with
  | none => rfl
  | some f => simp only [Option.map_some, ofFunction, Function.name_relabelAs,
      Function.qualifiedName_relabelAs, Function.arity_relabelAs, Function.isNative_relabelAs]

section

variable (d : Directory) (promise : PromiseId → Snapshot)

mutual

theorem Snapshot.ofValue_relabel :
    ∀ v : Value, ofValue (d.relabel label owner).function? promise v = ofValue d.function? promise v
  | .unit => rfl
  | .bool _ => rfl
  | .byte _ => rfl
  | .int _ => rfl
  | .float _ => rfl
  | .char _ => rfl
  | .symbol _ => rfl
  | .seq s => by rw [ofValue, ofValue, ofSeq_relabel s]
  | .tuple items => by rw [ofValue, ofValue, ofItems_relabel items]
  | .set items => by rw [ofValue, ofValue, ofItems_relabel items]
  | .dict entries => by rw [ofValue, ofValue, ofEntries_relabel entries]
  | .function id => ofFunction_relabel label id (owner id) (d.function? id)
  | .module _ => rfl
  | .promise _ => rfl
termination_by structural v => v

theorem Snapshot.ofSeq_relabel :
    ∀ s : Seq Value, ofSeq (d.relabel label owner).function? promise s = ofSeq d.function? promise s
  | ⟨front, back⟩ => by rw [ofSeq, ofSeq, ofItems_relabel front, ofItems_relabel back]
termination_by structural s => s

theorem Snapshot.ofItems_relabel :
    ∀ vs : List Value,
      ofItems (d.relabel label owner).function? promise vs = ofItems d.function? promise vs
  | [] => rfl
  | v :: rest => by rw [ofItems, ofItems, ofValue_relabel v, ofItems_relabel rest]
termination_by structural vs => vs

theorem Snapshot.ofEntries_relabel : ∀ es : List (Value × Value),
    ofEntries (d.relabel label owner).function? promise es = ofEntries d.function? promise es
  | [] => rfl
  | e :: rest => by rw [ofEntries, ofEntries, ofEntry_relabel e, ofEntries_relabel rest]
termination_by structural es => es

theorem Snapshot.ofEntry_relabel : ∀ e : Value × Value,
    ofEntry (d.relabel label owner).function? promise e = ofEntry d.function? promise e
  | (k, v) => by rw [ofEntry, ofEntry, ofValue_relabel k, ofValue_relabel v]
termination_by structural e => e

end

end

namespace Directory

variable (d : Directory)

theorem reportWith_relabel (shown : Value → Snapshot) :
    (d.relabel label owner).reportWith shown = d.reportWith shown := by
  funext e
  simp only [reportWith, unordered_relabel, legible_relabel, labels_relabel]

theorem standing_relabel (n : Nat) : (d.relabel label owner).standing n = d.standing n := by
  induction n with
  | zero => rfl
  | succ n ih =>
    funext p
    have hshown : Snapshot.ofValue (d.relabel label owner).function? (d.standing n) =
        Snapshot.ofValue d.function? (d.standing n) :=
      funext fun v => Snapshot.ofValue_relabel label owner d _ v
    simp only [standing, ih, hshown, reportWith_relabel]
    rfl

theorem promise_relabel : (d.relabel label owner).promise = d.promise := by
  funext p
  simp only [promise, standing_relabel]
  rfl

/-- Hosts are not shown how a qualified name is written in the code. -/
theorem snapshot_relabel : (d.relabel label owner).snapshot = d.snapshot := by
  funext v
  rw [snapshot, snapshot, promise_relabel, Snapshot.ofValue_relabel]

theorem report_relabel : (d.relabel label owner).report = d.report := by
  funext e
  rw [report, report, reportWith_relabel, snapshot_relabel]

end Directory

end

end Deferral
