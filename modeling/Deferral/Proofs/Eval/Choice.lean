import Deferral.Proofs.Eval.Derived
import Deferral.Proofs.Pattern.Nested

/-!
# Selections that wait

A selection over arms without guards picks the first arm whose pattern fits. For a promise-free value
`pick` says which one that is. The evaluator tries one arm after the other: it evaluates the keys of the
arm, which can change the machine, and matches, and it may have to stop at a promise that is pending.
`Picks` says what it comes to, and `Picks.carriedOut` that the evaluator does just that. What it leaves
with the promise are the arms from the one where it stopped, and these are tried when it is taken up
again.

Where promises stand for parts of a value, each start of the selection waits for one of them or picks
what is picked for the value, however often it has been taken up before
(`Value.StandsFor.selects_alike`).
-/

set_option autoImplicit false

namespace Deferral

open Value (StandsFor)

/-- An arm without guards, and what the keys of its pattern are evaluated to. -/
structure Choice where
  pattern : Pattern
  keys : List Value
  body : Expr

namespace Choice

def arm (c : Choice) : Arm := .mk c.pattern [(none, c.body)]

/-- The arm is being tried, and others are left. -/
def trial (c : Choice) (later : List Choice) (value : Value) (unmatched : Unmatched) : Trial :=
  ⟨value, c.arm, later.map arm, unmatched⟩

end Choice

/-- What a selection comes to. -/
inductive Pick where
  | body (bindings : List (String × Value)) (e : Expr)
  | nothing
  /-- An arm has to look at a promise that is pending. -/
  | waits (p : PromiseId) (c : Choice) (later : List Choice)
  | fails (e : Error)

/-- Which of the choices is picked if nothing is known of promises. -/
def pick (bound? : String → Option Value) (value : Value) : List Choice → Pick
  | [] => .nothing
  | c :: later =>
    match c.pattern.matching ⟨fun _ => none, bound?⟩ value c.keys with
    | .ok (.matched found) => .body found.bindings c.body
    | .ok .noMatch => pick bound? value later
    | .ok (.pending p) => .waits p c later
    | .error e => .fails e

/-! ## What the evaluator does -/

/-- What is done with what is picked. -/
def Pick.run (E : Engine) (value : Value) (unmatched : Unmatched) : Pick → EvalM Value
  | .body bindings e => E.evalInArm bindings e
  | .nothing => E.select value [] unmatched
  | .waits p c later => E.whenReady (.promise p) (.armRetry (c.trial later value unmatched) c.keys)
  | .fails e => EvalM.fail e

/-- A computation lets the machine evolve into `m₁` and there does what is picked, with at least this
fuel. -/
def Pick.DoneBy (picked : Pick) (context : Context) (n : Nat) (value : Value) (unmatched : Unmatched)
    (m m₁ : Machine) (x : EvalM Value) : Prop :=
  Evolves m m₁ ∧ ∃ k, n ≤ k ∧ x m = picked.run (engine context k) value unmatched m₁

/-- Trying choices in turn comes to this, in the machine `m₁`. The keys of the first of them are
evaluated before, unless they are `known`. -/
inductive Picks (context : Context) (n : Nat) (value : Value) :
    Bool → Machine → List Choice → Pick → Machine → Prop
  | nothing (m : Machine) : Picks context n value false m [] .nothing m
  | keyed {m m₁ m₂ : Machine} {c : Choice} {later : List Choice} {picked : Pick}
      (keys : (engine context (n + later.length + 1)).evalItems c.pattern.keys m = .ok c.keys m₁)
      (tried : Picks context n value true m₁ (c :: later) picked m₂) :
      Picks context n value false m (c :: later) picked m₂
  | fits {m : Machine} {c : Choice} {later : List Choice} {found : Match}
      (verdict : c.pattern.matching m.sight value c.keys = .ok (.matched found)) :
      Picks context n value true m (c :: later) (.body found.bindings c.body) m
  | next {m m₁ : Machine} {c : Choice} {later : List Choice} {picked : Pick}
      (verdict : c.pattern.matching m.sight value c.keys = .ok .noMatch)
      (others : Picks context n value false m later picked m₁) :
      Picks context n value true m (c :: later) picked m₁
  | waits {m : Machine} {c : Choice} {later : List Choice} {p : PromiseId}
      (verdict : c.pattern.matching m.sight value c.keys = .ok (.pending p)) :
      Picks context n value true m (c :: later) (.waits p c later) m
  | fails {m : Machine} {c : Choice} {later : List Choice} {e : Error}
      (verdict : c.pattern.matching m.sight value c.keys = .error e) :
      Picks context n value true m (c :: later) (.fails e) m

/-- The computation tries the choices, from the beginning or after the first has waited. -/
inductive Tries (context : Context) (n : Nat) (value : Value) (unmatched : Unmatched) :
    Bool → List Choice → EvalM Value → Prop
  | select (choices : List Choice) : Tries context n value unmatched false choices
      ((engine context (n + choices.length)).select value (choices.map Choice.arm) unmatched)
  | resume (c : Choice) (later : List Choice) (ready : Value) :
      Tries context n value unmatched true (c :: later)
        ((engine context (n + later.length + 2)).resume
          (.armRetry (c.trial later value unmatched) c.keys) ready)

section

variable {context : Context} {n : Nat} {value : Value} {known : Bool} {m m₁ : Machine}
  {choices later : List Choice} {c : Choice} {picked : Pick} {x : EvalM Value}

/-- Without guards in the pattern there are none to check. -/
theorem Choice.checkArmGuards_of_matched (hc : c.pattern.guardSize = 0) {found : Match} {sight : Sight}
    (hverdict : c.pattern.matching sight value c.keys = .ok (.matched found)) (E : Engine)
    (unmatched : Unmatched) :
    E.checkArmGuards (c.trial later value unmatched) found.bindings found.guards =
      E.evalInArm found.bindings c.body := by
  have hguards : found.guards = [] := by
    have htoll := Pattern.toll_of_matched hverdict
    rw [hc, Pattern.toll] at htoll
    exact List.eq_nil_of_length_eq_zero (by omega)
  rw [hguards]
  rfl

theorem Picks.evolves (h : Picks context n value known m choices picked m₁) : Evolves m m₁ := by
  induction h with
  | @keyed m _ _ c later _ keys tried ih =>
    have hends := (conducted_engine context (n + later.length + 1)).evalItems (ρ := (· = ·))
      c.pattern.keys m
    rw [keys] at hends
    exact hends.evolves.trans ih
  | next verdict others ih => exact ih
  | _ => exact .refl

/-- The evaluator does what trying the choices comes to. -/
theorem Picks.carriedOut (h : Picks context n value known m choices picked m₁)
    (hguards : ∀ c ∈ choices, c.pattern.guardSize = 0)
    (hkeys : ∀ c ∈ choices, c.keys.any Value.isPromise = false) {unmatched : Unmatched}
    (hx : Tries context n value unmatched known choices x) :
    picked.DoneBy context n value unmatched m m₁ x := by
  refine ⟨h.evolves, ?_⟩
  induction h generalizing x with
  | nothing m =>
    cases hx
    exact ⟨n, Nat.le_refl n, rfl⟩
  | @keyed m m₁ m₂ c later picked keys tried ih =>
    cases hx
    obtain ⟨k, hk, htry⟩ := ih hguards hkeys (.resume c later .unit)
    refine ⟨k, hk, (EvalM.bind_of_ok keys).trans (Eq.trans ?_ htry)⟩
    rw [Engine.whenAllReady, if_neg (by simp [hkeys c (.head _)])]
    rfl
  | @next m m₁ c later picked verdict others ih =>
    cases hx
    obtain ⟨k, hk, hselect⟩ := ih (fun c hc => hguards c (.tail _ hc))
      (fun c hc => hkeys c (.tail _ hc)) (.select later)
    exact ⟨k, hk, (Engine.tryArm_of_noMatch verdict).trans hselect⟩
  | @fits m c later found verdict =>
    cases hx
    refine ⟨n + later.length + 1, by omega, (Engine.tryArm_of_matched verdict).trans ?_⟩
    exact congrFun (Choice.checkArmGuards_of_matched (hguards c (.head _)) verdict _ _) m
  | @waits m c later p verdict =>
    cases hx
    exact ⟨n + later.length + 1, by omega, Engine.tryArm_of_pending verdict⟩
  | @fails m c later e verdict =>
    cases hx
    exact ⟨n + later.length + 1, by omega, Engine.tryArm_of_error verdict⟩

end

/-! ## Picking for what stands for a value -/

/-- Evaluation goes on in this environment, and promises keep to their destiny. -/
structure Machine.Steady (destiny : PromiseId → Option Value) (env : Environment) (m : Machine) :
    Prop where
  here : m.rest.env = env
  quiet : m.rest.interrupted = false
  keeps : m.sight.Keeps destiny

/-- The pattern only takes values apart, there are no guards in it, and given some fuel its keys are at
any time evaluated to those of the choice, which are there. -/
structure Choice.Ready (context : Context) (destiny : PromiseId → Option Value) (env : Environment)
    (fuel : Nat) (c : Choice) : Prop where
  apart : c.pattern.TakesApart env.getUser?
  unguarded : c.pattern.guardSize = 0
  keyed : ∀ {n : Nat} {m : Machine}, fuel ≤ n → m.Steady destiny env →
    ∃ m₁ : Machine, (engine context n).evalItems c.pattern.keys m = .ok c.keys m₁ ∧
      m₁.Steady destiny env
  there : c.keys.any Value.isPromise = false

/-- The same body is picked, with bindings that stand for those of the other, or both times nothing, or
both fail alike. -/
inductive Pick.Same (destiny : PromiseId → Option Value) : Pick → Pick → Prop
  | body {bindings' bindings : List (String × Value)} (stand : BindingsStand destiny bindings' bindings)
      (e : Expr) : Same destiny (.body bindings' e) (.body bindings e)
  | nothing : Same destiny .nothing .nothing
  | fails (r : Fault) : Same destiny (.fails (.resolution r)) (.fails (.resolution r))

section

variable {context : Context} {destiny : PromiseId → Option Value} {env : Environment} {fuel n : Nat}
  {v' v : Value} {known : Bool} {m m₁ : Machine} {choices rest : List Choice} {picked : Pick}

theorem Machine.Steady.bound? (hm : m.Steady destiny env) : m.sight.bound? = env.getUser? := by
  rw [← hm.here]
  rfl

/-- Trying choices comes to something. -/
theorem exists_picks (hready : ∀ c ∈ choices, c.Ready context destiny env fuel) (hn : fuel ≤ n)
    (hm : m.Steady destiny env) (value : Value) (known : Bool) (hknown : known = true → choices ≠ []) :
    ∃ picked m₁, Picks context n value known m choices picked m₁ := by
  induction choices generalizing m known with
  | nil =>
    cases known with
    | false => exact ⟨_, _, .nothing m⟩
    | true => exact absurd rfl (hknown rfl)
  | cons c later ih =>
    rw [List.forall_mem_cons] at hready
    have htry : ∀ {m : Machine}, m.Steady destiny env →
        ∃ picked m₁, Picks context n value true m (c :: later) picked m₁ := by
      intro m hm
      cases hverdict : c.pattern.matching m.sight value c.keys with
      | error e => exact ⟨_, _, .fails hverdict⟩
      | ok verdict =>
        cases verdict with
        | matched found => exact ⟨_, _, .fits hverdict⟩
        | pending p => exact ⟨_, _, .waits hverdict⟩
        | noMatch =>
          obtain ⟨picked, m₁, hlater⟩ := ih hready.2 hm false nofun
          exact ⟨picked, m₁, .next hverdict hlater⟩
    cases known with
    | true => exact htry hm
    | false =>
      obtain ⟨m₁, hkeys, hm₁⟩ := hready.1.keyed (Nat.le_add_right_of_le (Nat.le_add_right_of_le hn)) hm
      obtain ⟨picked, m₂, htried⟩ := htry hm₁
      exact ⟨picked, m₂, .keyed hkeys htried⟩

/-- The keys of a choice leave the machine steady. -/
theorem Choice.Ready.steady {c : Choice} (hc : c.Ready context destiny env fuel) (hn : fuel ≤ n)
    (hm : m.Steady destiny env)
    (hkeys : (engine context n).evalItems c.pattern.keys m = .ok c.keys m₁) :
    m₁.Steady destiny env := by
  obtain ⟨m₂, hkeys₂, hm₂⟩ := hc.keyed hn hm
  cases hkeys.symm.trans hkeys₂
  exact hm₂

/-- For a promise-free value trying the choices comes to what is picked. -/
theorem Picks.eq_pick (h : Picks context n v known m choices picked m₁) (hv : v.promiseFree = true)
    (hready : ∀ c ∈ choices, c.Ready context destiny env fuel) (hn : fuel ≤ n)
    (hm : m.Steady destiny env) : picked = pick env.getUser? v choices ∧ m₁.Steady destiny env := by
  have hblind : ∀ {m : Machine} {c : Choice}, c.Ready context destiny env fuel → m.Steady destiny env →
      c.pattern.matching ⟨fun _ => none, env.getUser?⟩ v c.keys =
        c.pattern.matching m.sight v c.keys := by
    intro m c hc hm
    rw [← hm.bound?]
    exact (Pattern.matching_of_promiseFree (hm.bound? ▸ hc.apart) hv c.keys).symm
  induction h with
  | nothing m => exact ⟨rfl, hm⟩
  | keyed keys tried ih =>
    exact ih hready ((hready _ (.head _)).steady (by omega) hm keys)
  | next verdict others ih =>
    rw [pick, hblind (hready _ (.head _)) hm, verdict]
    exact ih (fun c hc => hready c (.tail _ hc)) hm
  | fits verdict | waits verdict | fails verdict =>
    rw [pick, hblind (hready _ (.head _)) hm, verdict]
    exact ⟨rfl, hm⟩

/-- For what stands for a value it comes to the same, or has to wait, and then what is left decides for
the value as well. -/
theorem Picks.decides (h : Picks context n v' known m choices picked m₁) (hv : StandsFor destiny v' v)
    (hready : ∀ c ∈ choices, c.Ready context destiny env fuel) (hn : fuel ≤ n)
    (hm : m.Steady destiny env) : m₁.Steady destiny env ∧
      ((∃ q c later, picked = .waits q c later ∧ (destiny q).isSome ∧ m₁.store.outcome? q = none ∧
        (c :: later) <:+ choices ∧
        pick env.getUser? v choices = pick env.getUser? v (c :: later)) ∨
      Pick.Same destiny picked (pick env.getUser? v choices)) := by
  have hcases : ∀ {m : Machine} {c : Choice}, c.Ready context destiny env fuel → m.Steady destiny env →
      (∃ q, c.pattern.matching m.sight v' c.keys = .ok (.pending q) ∧ (destiny q).isSome ∧
        m.store.outcome? q = none) ∨
      SameVerdict (StandsFor destiny) (c.pattern.matching m.sight v' c.keys)
        (c.pattern.matching ⟨fun _ => none, env.getUser?⟩ v c.keys) :=
    fun hc hm => Pattern.matching_parallels hm.keeps hm.bound?.symm (hm.bound? ▸ hc.apart) hv _
  have hsame : ∀ {m : Machine} {c : Choice} {verdict : Except Error Matching},
      c.Ready context destiny env fuel → m.Steady destiny env →
      c.pattern.matching m.sight v' c.keys = verdict → (∀ q, verdict ≠ .ok (.pending q)) →
      SameVerdict (StandsFor destiny) verdict
        (c.pattern.matching ⟨fun _ => none, env.getUser?⟩ v c.keys) := by
    rintro m c _ hc hm rfl hwaits
    refine (hcases hc hm).resolve_left ?_
    rintro ⟨q, hq, -⟩
    exact hwaits q hq
  induction h with
  | nothing m => exact ⟨hm, .inr .nothing⟩
  | keyed keys tried ih =>
    exact ih hready ((hready _ (.head _)).steady (by omega) hm keys)
  | @next m m₁ c later picked verdict others ih =>
    -- the choice is passed over for both, so what the later ones come to decides
    have hskip : pick env.getUser? v (c :: later) = pick env.getUser? v later := by
      have hmisfit := hsame (hready c (.head _)) hm verdict nofun
      rw [pick]
      generalize c.pattern.matching ⟨fun _ => none, env.getUser?⟩ v c.keys = plain at hmisfit
      cases hmisfit
      rfl
    obtain ⟨hm₁, hlater⟩ := ih (fun c hc => hready c (.tail _ hc)) hm
    rw [hskip]
    refine ⟨hm₁, hlater.imp_left ?_⟩
    rintro ⟨q, d, rest, hpicked, standIn, pending, hsuffix, hrest⟩
    exact ⟨q, d, rest, hpicked, standIn, pending, hsuffix.trans (List.suffix_cons c later), hrest⟩
  | @waits m c later p verdict =>
    refine ⟨hm, .inl ⟨p, c, later, rfl, ?_⟩⟩
    rcases hcases (hready c (.head _)) hm with ⟨q, hq, standIn, pending⟩ | hsame
    · cases verdict.symm.trans hq
      exact ⟨standIn, pending, List.suffix_rfl, rfl⟩
    · rw [verdict] at hsame
      cases hsame
  | @fits m c later found verdict =>
    have hfits := hsame (hready c (.head _)) hm verdict nofun
    refine ⟨hm, .inr ?_⟩
    rw [pick]
    generalize c.pattern.matching ⟨fun _ => none, env.getUser?⟩ v c.keys = plain at hfits
    cases hfits with
    | matched bindings => exact .body bindings c.body
  | @fails m c later e verdict =>
    have hfails := hsame (hready c (.head _)) hm verdict nofun
    refine ⟨hm, .inr ?_⟩
    rw [pick]
    generalize c.pattern.matching ⟨fun _ => none, env.getUser?⟩ v c.keys = plain at hfails
    cases hfails with
    | fails r => exact .fails r

/-- Each time the choices have been tried, at moments when promises keep to their destiny, one has had
to wait, and these are left. -/
inductive Retried (context : Context) (destiny : PromiseId → Option Value) (env : Environment)
    (fuel : Nat) (v' : Value) (choices : List Choice) : List Choice → Prop
  | never : Retried context destiny env fuel v' choices choices
  | again {rest later : List Choice} {n : Nat} {known : Bool} {m m₁ : Machine} {q : PromiseId}
      {c : Choice} (before : Retried context destiny env fuel v' choices rest) (hn : fuel ≤ n)
      (hm : m.Steady destiny env) (waits : Picks context n v' known m rest (.waits q c later) m₁) :
      Retried context destiny env fuel v' choices (c :: later)

/-- What is left after any number of times decides for the value as all choices do. -/
theorem Retried.decides (hretried : Retried context destiny env fuel v' choices rest)
    (hv : StandsFor destiny v' v) (hready : ∀ c ∈ choices, c.Ready context destiny env fuel) :
    rest <:+ choices ∧ pick env.getUser? v choices = pick env.getUser? v rest := by
  induction hretried with
  | never => exact ⟨List.suffix_rfl, rfl⟩
  | again before hn hm waits ih =>
    obtain ⟨hsuffix, hrest⟩ := ih
    obtain ⟨-, ⟨_, _, _, ⟨⟩, -, -, hsuffix', hleft⟩ | hsame⟩ :=
      waits.decides hv (fun c hc => hready c (hsuffix.subset hc)) hn hm
    · exact ⟨hsuffix'.trans hsuffix, hrest.trans hleft⟩
    · cases hsame

end

/-- Let promises stand for parts of a value, at any depth, of which some are pending. A pattern that
only takes values apart then has to wait for one of these, or its verdict is the same as for the value,
with bindings that stand for those of the value; if none is pending, it does not wait.

A selection among arms with such patterns and without guards picks one for the value that does not
depend on the moment. For what stands for the value, at its start and whenever it is taken up again
after a wait, it has to wait for one of the promises that are pending, or does the same: it evaluates
the body of that arm, in bindings that stand for those of the value, or finds that no arm fits, or
fails. -/
theorem Value.StandsFor.selects_alike {destiny : PromiseId → Option Value} {v' v : Value}
    (h : StandsFor destiny v' v) :
    (∀ (sight : Sight) (p : Pattern) (keys : List Value), sight.Keeps destiny →
      p.TakesApart sight.bound? →
      ((∃ q, p.matching sight v' keys = .ok (.pending q) ∧ (destiny q).isSome ∧
          sight.outcome? q = none) ∨
        SameVerdict (StandsFor destiny) (p.matching sight v' keys) (p.matching sight v keys)) ∧
      ((∀ q, (destiny q).isSome → sight.outcome? q ≠ none) →
        ∀ q, p.matching sight v' keys ≠ .ok (.pending q))) ∧
    ∀ (context : Context) (env : Environment) (fuel : Nat) (choices : List Choice)
      (unmatched : Unmatched), (∀ c ∈ choices, c.Ready context destiny env fuel) →
      ∀ (m : Machine) (n : Nat), m.Steady destiny env → fuel ≤ n →
        (∃ m₁, m₁.Steady destiny env ∧
          (pick env.getUser? v choices).DoneBy context n v unmatched m m₁
            ((engine context (n + choices.length)).select v (choices.map Choice.arm) unmatched)) ∧
        ∀ rest known x, Retried context destiny env fuel v' choices rest →
          Tries context n v' unmatched known rest x →
          ∃ picked m₁, m₁.Steady destiny env ∧ picked.DoneBy context n v' unmatched m m₁ x ∧
            ((∃ q c later, picked = .waits q c later ∧ (destiny q).isSome ∧
                m₁.store.outcome? q = none ∧
                Retried context destiny env fuel v' choices (c :: later)) ∨
              Pick.Same destiny picked (pick env.getUser? v choices)) := by
  refine ⟨fun sight p keys hkeeps hp => ?_, ?_⟩
  · have hcases := Pattern.matching_parallels hkeeps rfl hp h keys
    refine ⟨hcases, fun hnone q hq => ?_⟩
    rcases hcases with ⟨q', -, standIn, pending⟩ | hsame
    · exact hnone q' standIn pending
    · rw [hq] at hsame
      cases hsame
  · intro context env fuel choices unmatched hready m n hm hn
    constructor
    · obtain ⟨picked, m₁, hpicks⟩ := exists_picks hready hn hm v false nofun
      obtain ⟨rfl, hm₁⟩ := hpicks.eq_pick h.promiseFree hready hn hm
      exact ⟨m₁, hm₁, hpicks.carriedOut (fun c hc => (hready c hc).unguarded)
        (fun c hc => (hready c hc).there) (.select choices)⟩
    · intro rest known x hretried hx
      obtain ⟨hsuffix, hleft⟩ := hretried.decides h hready
      have hrest : ∀ c ∈ rest, c.Ready context destiny env fuel :=
        fun c hc => hready c (hsuffix.subset hc)
      have hknown : known = true → rest ≠ [] := by
        cases hx with
        | select => nofun
        | resume => exact fun _ => List.cons_ne_nil _ _
      obtain ⟨picked, m₁, hpicks⟩ := exists_picks hrest hn hm v' known hknown
      have hdone := hpicks.carriedOut (fun c hc => (hrest c hc).unguarded)
        (fun c hc => (hrest c hc).there) hx
      obtain ⟨hm₁, hcases⟩ := hpicks.decides h hrest hn hm
      refine ⟨picked, m₁, hm₁, hdone, ?_⟩
      rcases hcases with ⟨q, c, later, rfl, standIn, pending, -⟩ | hsame
      · exact .inl ⟨q, c, later, rfl, standIn, pending, .again hretried hn hm hpicks⟩
      · exact .inr (hleft ▸ hsame)

/-- `(x, 7) -> ()`, and then `(1, y) -> y`. -/
def seven : Choice := ⟨.tuple [.bind "x", .literal (.int 7)], [], .literal .unit⟩

def second : Choice := ⟨.tuple [.literal (.int 1), .bind "y"], [], .identifier "y"⟩

/-- The session in which the promise has been given a value. -/
def Session.received : Session := (Session.expecting.run (.fulfil "later" (.ok (.int 2)))).1
/-- A selection for `(1, later)` has waited at the first arm. Once there is a value it is the second arm
that is evaluated, as for `(1, 2)`. -/
theorem Value.StandsFor.selects_alike_second :
    let context := Session.expecting.context
    let v' : Value := .tuple [.int 1, .promise ⟨0⟩]
    let destiny : PromiseId → Option Value := fun p => if p = ⟨0⟩ then some (.int 2) else none
    Picks context 1 v' false Session.expecting.machine [seven, second] (.waits ⟨0⟩ seven [second])
      Session.expecting.machine ∧
    (∃ bindings m₁ k, BindingsStand destiny bindings [("y", .int 2)] ∧
      (engine context 4).resume (.armRetry (seven.trial [second] v' .noMatch) []) (.int 2)
        Session.received.machine = (engine context k).evalInArm bindings (.identifier "y") m₁) ∧
    ∃ m₁ k, (engine context 3).select (.tuple [.int 1, .int 2]) [seven.arm, second.arm] .noMatch
      Session.received.machine = (engine context k).evalInArm [("y", .int 2)] (.identifier "y") m₁ := by
  intro context v' destiny
  let env := Session.expecting.machine.rest.env
  have hstands : StandsFor destiny v' (.tuple [.int 1, .int 2]) := by
    refine .tuple rfl fun hmem => ?_
    simp only [List.zip_cons_cons, List.zip_nil_left, List.mem_cons, Prod.mk.injEq, List.not_mem_nil,
      or_false] at hmem
    rcases hmem with ⟨rfl, rfl⟩ | ⟨rfl, rfl⟩
    · exact .itself rfl
    · exact .promise rfl rfl (.itself rfl)
  have hready : ∀ c ∈ [seven, second], c.Ready context destiny env 1 := by
    simp only [List.forall_mem_cons]
    exact ⟨⟨⟨by decide, by decide, by decide⟩, rfl, fun _ hm => ⟨_, rfl, hm⟩, rfl⟩,
      ⟨⟨by decide, by decide, by decide⟩, rfl, fun _ hm => ⟨_, rfl, hm⟩, rfl⟩, List.forall_mem_nil _⟩
  have hdestiny : ∀ p v, destiny p = some v → p = ⟨0⟩ ∧ v = .int 2 := by
    intro p v hp
    change (if p = ⟨0⟩ then some (Value.int 2) else none) = some v at hp
    split at hp
    · exact ⟨by assumption, (Option.some.inj hp).symm⟩
    · cases hp
  have hexpecting : Session.expecting.machine.Steady destiny env := by
    refine ⟨rfl, rfl, fun p v hp => ?_⟩
    obtain ⟨rfl, rfl⟩ := hdestiny p v hp
    exact .inl rfl
  have hreceived : Session.received.machine.Steady destiny env := by
    refine ⟨rfl, rfl, fun p v hp => ?_⟩
    obtain ⟨rfl, rfl⟩ := hdestiny p v hp
    exact .inr rfl
  have hwaits : Picks context 1 v' false Session.expecting.machine [seven, second]
      (.waits ⟨0⟩ seven [second]) Session.expecting.machine := .keyed rfl (.waits rfl)
  have hretried : Retried context destiny env 1 v' [seven, second] [seven, second] :=
    .again .never (Nat.le_refl 1) hexpecting hwaits
  have hpick : pick env.getUser? (.tuple [.int 1, .int 2]) [seven, second] =
      .body [("y", .int 2)] (.identifier "y") := rfl
  obtain ⟨⟨m₁, -, -, k, -, hselect⟩, hagain⟩ := hstands.selects_alike.2 context env 1 [seven, second]
    .noMatch hready Session.received.machine 1 hreceived (Nat.le_refl 1)
  obtain ⟨picked, m₂, -, ⟨hevolves, k₂, -, hresume⟩, hcases⟩ := hagain [seven, second] true _ hretried
    (.resume seven [second] (.int 2))
  rw [hpick] at hselect hcases
  refine ⟨hwaits, ?_, m₁, k, hselect⟩
  rcases hcases with ⟨q, _, _, -, standIn, pending, -⟩ | hsame
  · -- the promise has been given its value
    obtain ⟨v, hv⟩ := Option.isSome_iff_exists.1 standIn
    obtain ⟨rfl, rfl⟩ := hdestiny q v hv
    cases pending.symm.trans (hevolves.outcome? (o := .ok (.int 2)) rfl)
  · cases hsame with
    | body stand => exact ⟨_, m₂, k₂, stand, hresume⟩

end Deferral
