import Deferral.Proofs.Session.Transcript

/-!
# Private functions

Whether a qualified name may stand for a private function is decided while a program runs, by the
module that the environment names. This module says what that comes to for the program text. Each
qualified name is marked with whether it stands in code of a given module (`Labelling.marking`), and a
`Sentinel` watches every resolution of a marked name in a module of that name, in whatever run, task or
continuation it takes place, and writes to the log if it has anything to object to. Transcripts with and
without the sentinel are the same, so it never has.

Code of a module is the body of a function that the module declares, as far as it is not part of a
lambda or of another declaration. To code outside of it a private function is never given, not even if
that code is called by code of the module (`private_functions_stay_private`). Code of the module is
given every function as long as the module is there (`module_code_reaches_its_functions`), but a lambda
in it is not (`lambda_is_not_module_code`).
-/

set_option autoImplicit false

namespace Deferral

/-! ## Marks -/

/-- Marks a qualified name with whether it stands in code of a module. -/
def Labelling.marking (M : ModuleName) : Labelling := fun owner name =>
  String.ofList ((if owner = some M then '+' else '-') :: name.toList)

/-- The mark of a qualified name, and the name. -/
def readMark (marked : String) : Bool × String :=
  match marked.toList with
  | [] => (false, "")
  | mark :: name => (mark == '+', String.ofList name)

theorem readMark_marking (M : ModuleName) (owner : Option ModuleName) (name : String) :
    readMark (Labelling.marking M owner name) = (decide (owner = some M), name) := by
  simp only [readMark, Labelling.marking, String.toList_ofList, String.ofList_toList]
  split <;> rename_i howner <;> simp [howner]

theorem Frame.relabel_ne_functionRef {label : Labelling} {owner : Option ModuleName} {frame : Frame}
    (h : ∀ name, frame ≠ .functionRef name) (name : String) :
    frame.relabel label owner ≠ .functionRef name := by
  cases frame with
  | functionRef other => exact absurd rfl (h other)
  | _ => exact nofun

/-! ## Sentinels -/

/-- What a qualified name comes to in code that runs as code of `owner`. -/
def resolution (owner : Option ModuleName) (module : Value) (name : String) : Outcome :=
  match module with
  | .module m =>
    (if owner = some m.name then m.resolveInternal name else m.resolve name).map Value.function
  | other => .error (.typeError "." [other])

theorem resolveIn_eq (module : Value) (name : String) (m : Machine) :
    resolveIn module name m = EvalM.ofExcept (resolution m.rest.env.module module name) m := by
  cases module with
  | module mod =>
    change EStateM.bind (EvalM.ofExcept (if m.rest.env.module = some mod.name then
      mod.resolveInternal name else mod.resolve name)) (fun id => pure (Value.function id)) m = _
    unfold resolution EStateM.bind
    dsimp only
    cases (if m.rest.env.module = some mod.name then mod.resolveInternal name
      else mod.resolve name) <;> rfl
  | _ => rfl

/-- Someone who watches what the qualified names of a module come to. What is acceptable depends on
whether the name stands in code of the module, on the module, and on the name. -/
structure Sentinel where
  post : ModuleName
  accepts : Bool → Module → String → Outcome → Bool

namespace Sentinel

/-- What is written to the log if something is not acceptable. -/
def alarm : LogEntry := .outcome "alarm" (.ok .unit)

def objects (S : Sentinel) (inside : Bool) (module : Value) (name : String) (o : Outcome) : Bool :=
  match module with
  | .module m => m.name == S.post && !S.accepts inside m name o
  | _ => false

/-- Resolves a marked name under the eyes of the sentinel. -/
def resolve (S : Sentinel) (module : Value) (marked : String) : EvalM Value := do
  let (inside, name) := readMark marked
  let o ← EvalM.outcome (resolveIn module name)
  if S.objects inside module name o then EvalM.log alarm
  EvalM.ofExcept o

/-- The engine, for programs in which qualified names are marked, with the sentinel at its post. -/
def engine (S : Sentinel) (context : Context) : Nat → Engine
  | 0 => .exhausted context
  | n + 1 =>
    { (engine S context n).step with
      resume := fun frame v =>
        match frame with
        | .functionRef marked => S.resolve v marked
        | frame => (engine S context n).resumeStep frame v }

/-- The sentinel does not change what a name comes to, and is heard of if it objects. -/
theorem resolve_apply (S : Sentinel) (module : Value) {marked name : String} {inside : Bool}
    (hread : readMark marked = (inside, name)) (m : Machine) :
    S.resolve module marked m = EvalM.ofExcept (resolution m.rest.env.module module name)
      (if S.objects inside module name (resolution m.rest.env.module module name) then
        m.withLog (alarm :: m.rest.log) else m) := by
  have houtcome : EvalM.outcome (resolveIn module name) m =
      .ok (resolution m.rest.env.module module name) m := by
    rw [EvalM.outcome, resolveIn_eq]
    cases resolution m.rest.env.module module name <;> rfl
  simp only [Sentinel.resolve, hread]
  rw [EvalM.bind_of_ok houtcome]
  split <;> rfl

theorem engine_resume (S : Sentinel) (context : Context) (n : Nat) {frame : Frame} (v : Value)
    (h : ∀ name, frame ≠ .functionRef name) :
    (S.engine context (n + 1)).resume frame v = (S.engine context n).resumeStep frame v := by
  cases frame with
  | functionRef name => exact absurd rfl (h name)
  | _ => rfl

/-- The code at the sentinel's post is marked, and these modules are not lost. -/
def watch (S : Sentinel) (kept : ModuleName → Prop) : Rewriting := ⟨.marking S.post, kept⟩

/-- The sentinel accepts what names come to in code of the module and in other code, if these modules
are not lost. -/
def Content (S : Sentinel) (kept : ModuleName → Prop) : Prop := ∀ owner current m name,
  m.name = S.post → (S.watch kept).RunsAs owner current →
    S.accepts (decide (owner = some S.post)) m name (resolution current (.module m) name) = true

variable {S : Sentinel} {kept : ModuleName → Prop} (h : S.Content kept)
include h

theorem Content.not_objects {owner current : Option ModuleName}
    (howner : (S.watch kept).RunsAs owner current)
    (module : Value) (name : String) :
    S.objects (decide (owner = some S.post)) module name (resolution current module name) = false := by
  cases module with
  | module m =>
    simp only [objects, Bool.and_eq_false_imp, beq_iff_eq, Bool.not_eq_eq_eq_not, Bool.not_false]
    exact fun hm => h owner current m name hm howner
  | _ => rfl

/-- A content sentinel makes no difference to a name that has its mark. -/
theorem Content.resolve (owner : Option ModuleName) (module : Value) (name : String) :
    Parallel (.whole (S.watch kept)) owner (resolveIn module name)
      (S.resolve module (Labelling.marking S.post owner name)) := by
  intro m m' hm howner
  let o := resolution m.rest.env.module module name
  have hx : resolveIn module name m = EvalM.ofExcept o m := resolveIn_eq module name m
  have hy : S.resolve module (Labelling.marking S.post owner name) m' = EvalM.ofExcept o m' := by
    rw [S.resolve_apply module (readMark_marking ..), hm.env, h.not_objects howner]
    rfl
  rw [hx, hy]
  exact Parallel.ofExcept _ m m' hm howner

theorem Content.abreast (context : Context) (fuel : Nat) :
    Abreast (.whole (S.watch kept)) (Deferral.engine context fuel) (S.engine context fuel) := by
  induction fuel with
  | zero => exact abreast_exhausted _ context
  | succ n ih =>
    rw [engine_succ]
    refine ⟨ih.context, fun e _ => ih.evalStep e, fun w _ => ih.proceedStep w, fun frame v owner => ?_,
      ih.deliverStep⟩
    by_cases hframe : ∃ name, frame = .functionRef name
    · obtain ⟨name, rfl⟩ := hframe
      exact h.resolve owner v name
    · have hother : ∀ name, frame ≠ .functionRef name := fun name he => hframe ⟨name, he⟩
      rw [S.engine_resume context n v (Frame.relabel_ne_functionRef hother)]
      exact ih.resumeStep frame v hother

/-- A content sentinel is never heard of. -/
theorem Content.transcript (deeds : List Deed)
    (hkept : ∀ held, .holding held ∈ deeds → ∀ module : Module, kept module.name → held module = true)
    {owner : Option ModuleName} {s s' : Session} (hs : s.Beside (S.watch kept) owner s') :
    s'.transcript S.engine (Deed.relabelAll (.marking S.post) owner deeds) =
      s.transcript Deferral.engine deeds :=
  Session.transcript_relabel h.abreast conducted_engine deeds hkept hs

end Sentinel

/-! ## What names come to -/

namespace Module

/-- Whether the outcome of a name keeps the private functions of a module from other code
(`shields_iff`). -/
def shields (m : Module) (name : String) : Outcome → Bool
  | .ok (.function id) => m.isExported name && m.find? name == some id
  | .ok _ => false
  | .error (.undefined hidden (.privateFunction text)) =>
    m.isExported name || (m.find? name).isNone || (hidden == name && text == m.name.text)
  | .error _ => m.isExported name || (m.find? name).isNone

/-- Whether the outcome of a name is the function that the module declares under it, if there is one
(`supplies_iff`). -/
def supplies (m : Module) (name : String) (o : Outcome) : Bool :=
  match m.find? name, o with
  | none, _ => true
  | some id, .ok (.function found) => found == id
  | some _, _ => false

variable {m : Module} {name : String} {o : Outcome}

/-- Nothing but an exported function is given, and a name that is declared and not exported fails as
a private one. -/
theorem shields_iff : m.shields name o = true ↔
    (∀ v, o = .ok v → ∃ id, v = .function id ∧ m.isExported name = true ∧ m.find? name = some id) ∧
    ((m.find? name).isSome = true → m.isExported name = false →
      o = .error (.undefined name (.privateFunction m.name.text))) := by
  unfold shields
  split
  · simp_all
  · simp_all
  · cases hexported : m.isExported name <;> cases hfound : m.find? name <;> simp_all
  · rename_i e he
    cases hexported : m.isExported name <;> cases hfound : m.find? name <;> simp_all

theorem supplies_iff : m.supplies name o = true ↔
    ∀ id, m.find? name = some id → o = .ok (.function id) := by
  unfold supplies
  split <;> simp_all

end Module

namespace Sentinel

/-- Objects if code outside of a module is given one of its private functions, or is not told that a
function is private. -/
def privacy (M : ModuleName) : Sentinel := ⟨M, fun inside m name o => inside || m.shields name o⟩

/-- Objects if code of a module is not given a function that the module declares. -/
def supply (M : ModuleName) : Sentinel := ⟨M, fun inside m name o => !inside || m.supplies name o⟩

/-- Code of other modules stays outside also when its module is lost. -/
theorem content_privacy (M : ModuleName) : (privacy M).Content fun _ => False := by
  intro owner current m name hm hruns
  by_cases howner : owner = some M
  · simp [privacy, howner]
  · have houtside : current ≠ some m.name := by
      rcases hruns with rfl | ⟨rfl, -⟩
      · exact fun he => howner (by rw [he, hm]; rfl)
      · exact nofun
    simp only [privacy, howner, decide_false, Bool.false_or, Module.shields_iff, resolution,
      if_neg houtside, Module.resolve, Module.resolveInternal]
    cases hfound : m.find? name with
    | none => simp [Except.map]
    | some id =>
      cases hexported : m.isExported name <;> simp [Except.map]

theorem content_supply (M : ModuleName) : (supply M).Content (· = M) := by
  intro owner current m name hm hruns
  by_cases howner : owner = some M
  · have hinside : current = some m.name := by
      rcases hruns with rfl | ⟨-, hlost⟩
      · rw [howner, hm]
        rfl
      · exact absurd rfl (hlost M howner)
    simp only [supply, howner, decide_true, Bool.not_true, Bool.false_or, Module.supplies_iff]
    intro id hfound
    rw [resolution, if_pos hinside, Module.resolveInternal, hfound]
    rfl
  · simp [supply, howner]

end Sentinel

/-- No name outside the code of a module is ever given a private function of it, in any session whose
host sets no module: the sentinel that watches for that is not heard of. -/
theorem private_functions_stay_private (executor : Executor) (maxCallDepth : Nat)
    (withPrelude withHost : Bool) (M : ModuleName) (deeds : List Deed)
    (hdeeds : ∀ name, .command (.setModule (some name)) ∉ deeds) :
    (Session.start executor maxCallDepth withPrelude withHost).transcript
        (Sentinel.privacy M).engine (deeds.map (Deed.relabel (.marking M) none)) =
      (Session.start executor maxCallDepth withPrelude withHost).transcript engine deeds := by
  rw [← Deed.relabelAll_none _ hdeeds]
  exact (Sentinel.content_privacy M).transcript deeds (fun _ _ _ => False.elim)
    (Session.beside_start _ _ _ _ _)

/-- What kind of error a host is shown. -/
def Response.errorKind? : Response → Option ErrorKind
  | .outcome (.error report) => some report.kind
  | _ => none

/-- A module with a private function, a function that refers to it in a lambda, and one that calls
whatever it is given. -/
def vault : Expr :=
  .moduleDecl ⟨["Vault"]⟩ ["open", "call"]
    [.mk "secret" [] (.literal (.int 1)),
      .mk "open" []
        (.call (.lambda none [] (.functionRef (.moduleRef ⟨["Vault"]⟩) "secret")) [] none),
      .mk "call" ["f"] (.call (.identifier "f") [] none)]

/-- A host that has the module call a lambda of its own, which refers to the private function. -/
def intrusion : List Deed :=
  [.command (.eval vault none),
    .command (.eval (.call (.functionRef (.moduleRef ⟨["Vault"]⟩) "call")
      [.lambda none [] (.functionRef (.moduleRef ⟨["Vault"]⟩) "secret")] none) none)]

theorem private_functions_stay_private_intrusion :
    (∀ name, .command (.setModule (some name)) ∉ intrusion) ∧
    (Session.start .immediate 100 true true).transcript (Sentinel.privacy ⟨["Vault"]⟩).engine
        (intrusion.map (Deed.relabel (.marking ⟨["Vault"]⟩) none)) =
      (Session.start .immediate 100 true true).transcript engine intrusion ∧
    ((Session.start .immediate 100 true true).transcript engine intrusion).map (·.1.errorKind?) =
      [none, some (.undefined (.privateFunction "Vault"))] := by
  have hdeeds : ∀ name, .command (.setModule (some name)) ∉ intrusion := by
    intro name hmem
    simp [intrusion] at hmem
  exact ⟨hdeeds, private_functions_stay_private .immediate 100 true true ⟨["Vault"]⟩ intrusion hdeeds,
    rfl⟩

/-- A name in code of a module is given the function that the module declares under it, exported or not,
whenever that code is run, as long as no module of that name is let go of. -/
theorem module_code_reaches_its_functions (executor : Executor) (maxCallDepth : Nat)
    (withPrelude withHost : Bool) (M : ModuleName) (deeds : List Deed)
    (hheld : ∀ held, .holding held ∈ deeds → ∀ module : Module, module.name = M → held module = true) :
    (Session.start executor maxCallDepth withPrelude withHost).transcript
        (Sentinel.supply M).engine (Deed.relabelAll (.marking M) none deeds) =
      (Session.start executor maxCallDepth withPrelude withHost).transcript engine deeds :=
  (Sentinel.content_supply M).transcript deeds hheld (Session.beside_start _ _ _ _ _)

/-- A module whose only exported function refers to one that is not, and another one of that name in its
place. The exported function of the first is called when both have been declared. -/
def replaced : Expr :=
  .letIn
    [(.bind "run", .functionRef (.moduleDecl ⟨["Vault"]⟩ ["run"]
        [.mk "secret" [] (.literal (.int 1)),
          .mk "run" [] (.functionRef (.moduleRef ⟨["Vault"]⟩) "secret")]) "run"),
      (.wildcard, .moduleDecl ⟨["Vault"]⟩ [] [.mk "secret" [] (.literal (.int 2))])]
    (.call (.identifier "run") [] none)

/-- A host that has only modules of that name held. -/
def replacement : List Deed :=
  [.holding (·.name == ⟨["Vault"]⟩), .command (.eval replaced none)]

/-- The name is looked up in the module that is registered, which gives its own private function to code
of the one before. -/
theorem module_code_reaches_its_functions_replacement :
    (∀ held, .holding held ∈ replacement → ∀ module : Module, module.name = ⟨["Vault"]⟩ →
      held module = true) ∧
    (Session.start .immediate 100 true true).transcript (Sentinel.supply ⟨["Vault"]⟩).engine
        (Deed.relabelAll (.marking ⟨["Vault"]⟩) none replacement) =
      (Session.start .immediate 100 true true).transcript engine replacement ∧
    ((Session.start .immediate 100 true true).transcript engine replacement).map (·.1.errorKind?) =
      [none] := by
  have hheld : ∀ held, .holding held ∈ replacement → ∀ module : Module, module.name = ⟨["Vault"]⟩ →
      held module = true := by
    intro held hmem module hname
    simp only [replacement, List.mem_cons, Deed.holding.injEq, reduceCtorEq, List.not_mem_nil,
      or_false] at hmem
    subst hmem
    exact beq_iff_eq.2 hname
  exact ⟨hheld, module_code_reaches_its_functions .immediate 100 true true ⟨["Vault"]⟩ replacement hheld,
    rfl⟩

/-- A function that has lost its module does not run as code of it, so the name in it is refused. -/
theorem lost_module_code_is_refused :
    ((Session.start .immediate 100 true true).transcript engine
      [.holding fun _ => false, .command (.eval replaced none)]).map (·.1.errorKind?) =
        [some (.undefined (.privateFunction "Vault"))] :=
  rfl

/-- A lambda does not run as code of the module whose function it is written in, so the name in it is
refused. -/
theorem lambda_is_not_module_code :
    ((Session.start .immediate 100 true true).transcript engine
      [.command (.eval vault none),
        .command (.eval (.call (.functionRef (.moduleRef ⟨["Vault"]⟩) "open") [] none) none)]).map
        (·.1.errorKind?) = [none, some (.undefined (.privateFunction "Vault"))] :=
  rfl

end Deferral
