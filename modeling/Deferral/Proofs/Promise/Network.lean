import Mathlib.Data.List.GetD
import Mathlib.Data.List.Induction
import Deferral.Proofs.Promise.Routine
import Deferral.Proofs.Promise.Waiting

/-!
# Networks of promises and what they compute

A network is built from sources, which are settled from outside, with handlers that are pure functions
of an outcome. Its nodes are numbered in the order in which they are made. A *script* makes the nodes
and settles the sources, in any order in which each thing is there before it is referred to.

`denote` computes the outcome of each node from the outcomes of the sources, node by node, with no
promise, continuation or script in sight. `lookUp_denote` is the equation that it satisfies: the
outcome of a node is what the node makes of the outcomes of the others.
-/

set_option autoImplicit false

namespace Deferral

namespace Network

/-- A handler that is a function of the outcome. -/
abbrev PureHandler := Outcome → Outcome

/-- How a promise of the network comes about. -/
inductive Node where
  | source
  /-- A promise for what the handler makes of an outcome. -/
  | andThen (p : PromiseId) (handler : PureHandler)
  /-- A promise for what the function makes of a value; a failure is passed on. -/
  | map (p : PromiseId) (transform : Value → Outcome)
  /-- A promise for the tuple of all operands. -/
  | all (operands : List Value)

inductive Action where
  | make (node : Node)
  | settle (source : PromiseId) (outcome : Outcome)

/-- A pure handler as a routine. -/
def answer (h : PureHandler) (o : Outcome) : Routine PureHandler Unit Outcome := .done (h o)

/-- The routine that follows a script. -/
def routine : List Action → Routine PureHandler Unit Unit
  | [] => .done ()
  | .make .source :: rest => .new fun _ => routine rest
  | .make (.andThen p h) :: rest => .derive p h fun _ => routine rest
  | .make (.map p f) :: rest => .derive p (·.bind f) fun _ => routine rest
  | .make (.all operands) :: rest => .all operands fun _ => routine rest
  | .settle p o :: rest => .fulfil p o (routine rest)

/-- Follows a script from the empty store; `n` bounds how deeply cascades are nested. -/
def run (n : Nat) (script : List Action) : EStateM.Result Halt (World PureHandler Unit) Unit :=
  (routine script).perform answer n ⟨.empty, ()⟩

/-- The nodes that a script makes. -/
def nodes (script : List Action) : List Node :=
  script.filterMap fun
    | .make node => some node
    | .settle .. => none

/-- What a script settles a promise with. A second settlement is ignored. -/
def settledWith (p : PromiseId) : List Action → Option Outcome
  | [] => none
  | .make _ :: rest => settledWith p rest
  | .settle q o :: rest => if q = p then some o else settledWith p rest

/-! ## The outcomes of the nodes -/

/-- What an operand stands for, where the outcomes of promises are known. -/
def operandValue (known : PromiseId → Outcome) : Value → Outcome
  | .promise p => known p
  | v => .ok v

/-- The outcome of a node, where the outcomes of other promises are known; that of a source is
`given`. A promise as the answer of a handler is looked through. -/
def Node.outcome (known : PromiseId → Outcome) (given : Outcome) : Node → Outcome
  | .source => given
  | .andThen p h => (h (known p)).bind (operandValue known)
  | .map p f => ((known p).bind f).bind (operandValue known)
  | .all operands => (operands.mapM (operandValue known)).map .tuple

/-- The outcome of a promise in a list; there is no promise outside it. -/
def lookUp (outcomes : List Outcome) (p : PromiseId) : Outcome := outcomes.getD p.index (.ok .unit)

/-- The outcomes of all nodes, given those of the sources. -/
def denote (sources : PromiseId → Outcome) (nodes : List Node) : List Outcome :=
  nodes.foldl
    (fun known node => known ++ [node.outcome (lookUp known) (sources ⟨known.length⟩)]) []

/-! ## Well-formed networks -/

/-- The `i`-th node refers to promises that were made before it, and so do the answers of its
handler. -/
def Node.Scoped (i : Nat) : Node → Prop
  | .source => True
  | .andThen p h => p.index < i ∧ ∀ o q, h o = .ok (.promise q) → q.index < i
  | .map p f => p.index < i ∧ ∀ v q, f v = .ok (.promise q) → q.index < i
  | .all operands => ∀ p, .promise p ∈ operands → p.index < i

def Scoped (nodes : List Node) : Prop :=
  ∀ (i : Nat) (node : Node), nodes[i]? = some node → node.Scoped i

/-- After the nodes `made`, the script refers to nothing before it is there, and what it settles are
sources, with concrete outcomes. -/
def Follows (made : List Node) : List Action → Prop
  | [] => True
  | .make node :: rest => node.Scoped made.length ∧ Follows (made ++ [node]) rest
  | .settle p o :: rest => made[p.index]? = some .source ∧ Concrete o ∧ Follows made rest

/-- A script can be followed from the beginning. -/
def WellFormed (script : List Action) : Prop := Follows [] script

/-- The script settles every source, with the given outcomes. -/
def Settles (script : List Action) (sources : PromiseId → Outcome) : Prop :=
  ∀ p, (nodes script)[p.index]? = some .source → settledWith p script = some (sources p)

/-- Where several operands of a gathering fail, they fail with the same error. -/
def Agrees (nodes : List Node) (den : PromiseId → Outcome) : Prop :=
  ∀ operands, .all operands ∈ nodes → ∀ v ∈ operands, ∀ w ∈ operands, ∀ e e',
    operandValue den v = .error e → operandValue den w = .error e' → e = e'

theorem Scoped.concat {made : List Node} {node : Node} (h : Scoped made)
    (hnode : node.Scoped made.length) : Scoped (made ++ [node]) := by
  intro i other hi
  rw [List.getElem?_append] at hi
  split at hi
  · exact h i other hi
  · have hlt := (List.getElem?_eq_some_iff.1 hi).1
    obtain rfl : i = made.length := by simp at hlt; omega
    rw [Nat.sub_self] at hi
    obtain rfl := Option.some.inj hi
    exact hnode

theorem Follows.scoped : ∀ {made : List Node} {script : List Action}, Follows made script →
    Scoped made → Scoped (made ++ nodes script)
  | made, [], _, hmade => by rwa [nodes, List.filterMap_nil, List.append_nil]
  | made, .make node :: rest, h, hmade => by
    have hrest := h.2.scoped (hmade.concat h.1)
    rwa [List.append_assoc] at hrest
  | made, .settle p o :: rest, h, hmade => h.2.2.scoped hmade

theorem WellFormed.scoped {script : List Action} (h : WellFormed script) : Scoped (nodes script) :=
  Follows.scoped h fun i _ hi => by simp at hi

/-- What a script settles are sources, with concrete outcomes. -/
theorem Follows.settledWith {p : PromiseId} {o : Outcome} : ∀ {made : List Node}
    {script : List Action}, Follows made script → settledWith p script = some o →
    (made ++ nodes script)[p.index]? = some .source ∧ Concrete o
  | made, .make node :: rest, h, ho => by
    have hrest := h.2.settledWith ho
    rwa [List.append_assoc] at hrest
  | made, .settle q o' :: rest, h, ho => by
    rw [Network.settledWith] at ho
    by_cases hqp : q = p
    · rw [if_pos hqp] at ho
      obtain rfl := Option.some.inj ho
      obtain rfl := hqp
      have hlt := (List.getElem?_eq_some_iff.1 h.1).1
      exact ⟨by rw [List.getElem?_append_left hlt, h.1], h.2.1⟩
    · rw [if_neg hqp] at ho
      exact h.2.2.settledWith ho

/-! ## The denotation -/

section Denote

variable {known known' : PromiseId → Outcome} {sources : PromiseId → Outcome}

theorem operandValue_congr {v : Value} (h : ∀ p, v = .promise p → known p = known' p) :
    operandValue known v = operandValue known' v := by
  cases v with
  | promise p => exact h p rfl
  | _ => rfl

theorem bind_operandValue_congr {o : Outcome} (h : ∀ p, o = .ok (.promise p) → known p = known' p) :
    o.bind (operandValue known) = o.bind (operandValue known') := by
  cases o with
  | error e => rfl
  | ok v => exact operandValue_congr fun p hv => h p (congrArg _ hv)

theorem mapM_operandValue_congr {operands : List Value}
    (h : ∀ p, .promise p ∈ operands → known p = known' p) :
    operands.mapM (operandValue known) = operands.mapM (operandValue known') := by
  induction operands with
  | nil => rfl
  | cons v rest ih =>
    rw [List.mapM_cons, List.mapM_cons, operandValue_congr fun p hp => h p (hp ▸ .head _),
      ih fun p hp => h p (.tail _ hp)]

/-- The promise that a transform answers with is in scope. -/
theorem Node.Scoped.of_bind {i : Nat} {p q : PromiseId} {f : Value → Outcome} {o : Outcome}
    (h : (Node.map p f).Scoped i) (hq : o.bind f = .ok (.promise q)) : q.index < i := by
  cases o with
  | error e => cases hq
  | ok v => exact h.2 v q hq

/-- The outcome of a node rests on promises that were made before it. -/
theorem Node.outcome_congr {i : Nat} {node : Node} (hnode : node.Scoped i)
    (h : ∀ p : PromiseId, p.index < i → known p = known' p) (given : Outcome) :
    node.outcome known given = node.outcome known' given := by
  cases node with
  | source => rfl
  | andThen p f =>
    rw [outcome, outcome, h p hnode.1]
    exact bind_operandValue_congr fun q hq => h q (hnode.2 _ q hq)
  | map p f =>
    rw [outcome, outcome, h p hnode.1]
    exact bind_operandValue_congr fun q hq => h q (hnode.of_bind hq)
  | all operands =>
    rw [outcome, outcome, mapM_operandValue_congr fun p hp => h p (hnode p hp)]

theorem denote_concat (nodes : List Node) (node : Node) :
    denote sources (nodes ++ [node]) = denote sources nodes ++
      [node.outcome (lookUp (denote sources nodes)) (sources ⟨(denote sources nodes).length⟩)] := by
  rw [denote, List.foldl_append]
  rfl

@[simp] theorem length_denote (nodes : List Node) : (denote sources nodes).length = nodes.length := by
  induction nodes using List.reverseRecOn with
  | nil => rfl
  | append_singleton nodes node ih => rw [denote_concat, List.length_append, ih]; simp

theorem lookUp_append_left {a : List Outcome} (b : List Outcome) {p : PromiseId}
    (h : p.index < a.length) : lookUp (a ++ b) p = lookUp a p := by
  rw [lookUp, lookUp, List.getD_append _ _ _ _ h]

/-- The outcome of a node is what it makes of the outcomes of the others. -/
theorem lookUp_denote {nodes : List Node} (hscoped : Scoped nodes) {i : Nat} {node : Node}
    (h : nodes[i]? = some node) :
    lookUp (denote sources nodes) ⟨i⟩ =
      node.outcome (lookUp (denote sources nodes)) (sources ⟨i⟩) := by
  induction nodes using List.reverseRecOn with
  | nil => cases h
  | append_singleton nodes last ih =>
    -- a later node changes nothing for the earlier ones
    have hlater : ∀ p : PromiseId, p.index < nodes.length →
        lookUp (denote sources (nodes ++ [last])) p = lookUp (denote sources nodes) p := by
      intro p hp
      rw [denote_concat]
      exact lookUp_append_left _ (by rwa [length_denote])
    have hi := (List.getElem?_eq_some_iff.1 h).1
    rw [List.length_append, List.length_singleton] at hi
    rcases Nat.lt_or_ge i nodes.length with hi' | hi'
    · rw [List.getElem?_append_left hi'] at h
      have hinit : Scoped nodes := fun j n hj =>
        hscoped j n (by rwa [List.getElem?_append_left (List.getElem?_eq_some_iff.1 hj).1])
      rw [hlater ⟨i⟩ hi', ih hinit h]
      exact Node.outcome_congr (hinit i node h) (fun p hp => (hlater p (Nat.lt_trans hp hi')).symm) _
    · obtain rfl : i = nodes.length := by omega
      have hnode := hscoped _ node h
      rw [List.getElem?_concat_length] at h
      obtain rfl := Option.some.inj h
      rw [← Node.outcome_congr hnode (fun p hp => (hlater p hp).symm), denote_concat, length_denote]
      simp [lookUp]

/-- Every node has a concrete outcome if every source has. -/
theorem concrete_denote {nodes : List Node} (hscoped : Scoped nodes)
    (hsources : ∀ p : PromiseId, nodes[p.index]? = some .source → Concrete (sources p)) :
    ∀ p, Concrete (lookUp (denote sources nodes) p) := by
  rintro ⟨i⟩
  induction i using Nat.strong_induction_on with
  | _ i ih =>
    have hbind : ∀ o : Outcome, (∀ q, o = .ok (.promise q) → q.index < i) →
        Concrete (o.bind (operandValue (lookUp (denote sources nodes)))) := by
      intro o ho
      rcases concrete_or_promise o with hc | ⟨q, rfl⟩
      · cases o with
        | error e => exact concrete_error e
        | ok v =>
          cases v with
          | promise q => exact absurd rfl (hc q)
          | _ => exact hc
      · exact ih q.index (ho q rfl)
    cases hnode : nodes[i]? with
    | none =>
      have hi := List.getElem?_eq_none_iff.1 hnode
      rw [lookUp, List.getD_eq_default _ _ (by simpa using hi)]
      exact fun q hq => by cases hq
    | some node =>
      have hnodeScoped := hscoped i node hnode
      rw [lookUp_denote hscoped hnode]
      cases node with
      | source => exact hsources ⟨i⟩ hnode
      | andThen p f => exact hbind _ (hnodeScoped.2 _)
      | map p f => exact hbind _ fun q hq => hnodeScoped.of_bind hq
      | all operands =>
        rw [Node.outcome]
        cases operands.mapM (operandValue (lookUp (denote sources nodes))) with
        | error e => exact concrete_error e
        | ok vs => exact fun q hq => by cases hq

end Denote

end Network

end Deferral
