import Deferral.Proofs.Eval.Parallel
import Deferral.Session.Command

/-!
# Sessions that hosts cannot tell apart

Two hosts ask the same of two sessions, the second one perhaps with the code it hands over relabelled.
A `Mirror` is a relation of sessions that show the same and that stay related when a session does by
itself what its host asks for. If the engines bring related sessions to the same ends (`Mirror.Engines`),
then the hosts are shown the same and the sessions are related again, whatever the command
(`Mirror.runWith`).
-/

set_option autoImplicit false

namespace Deferral

theorem Expr.kindName_relabel (label : Labelling) (owner : Option ModuleName) (e : Expr) :
    (e.relabel label owner).kindName = e.kindName := by
  cases e <;> rfl

namespace Command

/-- Relabels the code that a host hands over with a command. The functions of a module that is built
are not linked to it. -/
def relabel (label : Labelling) (owner : Option ModuleName) : Command → Command
  | .eval e save => .eval (e.relabel label owner) save
  | .force e save => .force (e.relabel label owner) save
  | .call function args save => .call (function.relabel label owner) args save
  | .inspect e places => .inspect (e.relabel label owner) places
  | .compare a b => .compare (a.relabel label owner) (b.relabel label owner)
  | .tryMatch value pattern keys defines =>
    .tryMatch value (pattern.relabel label owner) keys defines
  | .map name source function hidden => .map name source (function.relabel label owner) hidden
  | .mapEither name source function hidden =>
    .mapEither name source (function.relabel label owner) hidden
  | .defineAs name e => .defineAs name (e.relabel label owner)
  | .register name exports functions =>
    .register name exports (Expr.relabelFunctions label none functions)
  | c => c

/-- Who owns the code of the host after a command. -/
def ownerAfter (owner : Option ModuleName) : Command → Option ModuleName
  | .setModule name => name
  | _ => owner

theorem relabel_plain (owner : Option ModuleName) (c : Command) : c.relabel .plain owner = c := by
  cases c <;> simp only [relabel, Expr.relabel_plain, Pattern.relabel_plain, Expr.relabelFunctions_plain]

/-- What a host supplies with a command, in an environment of its own: outcomes, and environments that
it enters. -/
def Supplies (given : Outcome → Prop) (scope : Environment → Prop) (env : Environment) : Command → Prop
  | .promise _ (some o) _ => given o
  | .fulfil _ o => given o
  | .enterCall frame max => ∀ env', env.enterCall frame max = .ok env' → scope env'
  | _ => True

end Command

namespace Session

/-! ## What is shown -/

/-- Whatever hosts may be shown of a session is the same in the other one. -/
structure SameView (s s' : Session) : Prop where
  promises : s'.promises = s.promises
  saved : s'.saved = s.saved
  environment : s'.environment = s.environment
  modules : s'.machine.rest.modules = s.machine.rest.modules
  queue : s'.machine.rest.queue = s.machine.rest.queue
  outcome? : s'.machine.store.outcome? = s.machine.store.outcome?
  isPending : s'.machine.store.isPending = s.machine.store.isPending
  snapshot : s'.directory.snapshot = s.directory.snapshot
  report : s'.directory.report = s.directory.report
  promise : s'.directory.promise = s.directory.promise
  inspect : s'.directory.inspect = s.directory.inspect
  unordered : s'.directory.unordered = s.directory.unordered
  quoted? : s'.directory.quoted? = s.directory.quoted?

namespace SameView

variable {s s' : Session} (h : s.SameView s')
include h

theorem promise? (name : String) : s'.promise? name = s.promise? name := by
  rw [Session.promise?, Session.promise?, h.promises]

theorem nameOf? (p : PromiseId) : s'.nameOf? p = s.nameOf? p := by
  rw [Session.nameOf?, Session.nameOf?, h.promises]

theorem savedNow : s'.savedNow = s.savedNow := by
  rw [Session.savedNow, Session.savedNow, h.saved, h.snapshot]

theorem sight : s'.machine.sight = s.machine.sight := by
  have henv : s'.machine.rest.env = s.machine.rest.env := h.environment
  rw [Machine.sight, Machine.sight, h.outcome?, henv]

theorem shown : s'.shown = s.shown := by
  funext o
  cases o <;> simp only [Session.shown, h.snapshot, h.report]

theorem resolution (m : Module) : s'.resolution m = s.resolution m := by
  have hshown : s'.shownFunction = s.shownFunction := by
    funext r
    cases r <;> simp only [Session.shownFunction, h.shown]
  funext name
  simp only [Session.resolution, hshown]

theorem aborted (abort : Abort) : s'.aborted abort = s.aborted abort := by
  cases abort <;> simp only [Session.aborted, h.report]

end SameView

/-- Two hosts are shown the same, by sessions that are related again. -/
structure Replies (R : Session → Session → Prop) (r r' : Session × Response) : Prop where
  sessions : R r.1 r'.1
  response : r'.2 = r.2

/-! ## Mirrors -/

/-- A relation of sessions that show the same, kept by what a session does by itself. The code that the
host hands over next has the owner given; `scope` says which environments it may be run in, and `made`
which promises there are. -/
structure Mirror (R : Option ModuleName → Session → Session → Prop)
    (scope : Option ModuleName → Environment → Prop) (made : Machine → PromiseId → Prop) : Prop where
  view : ∀ {owner s s'}, R owner s s' → s.SameView s'
  inScope : ∀ {owner s s'}, R owner s s' → scope owner s.environment
  finds : ∀ {owner s s' name p}, R owner s s' → s.promise? name = some p → made s.machine p
  save : ∀ {owner s s'} (name : Option String) (v : Value), R owner s s' →
    R owner (s.save name v) (s'.save name v)
  named : ∀ {owner s s' p} (name : String), R owner s s' → made s.machine p →
    R owner { s with promises := s.promises ++ [(name, p)] }
      { s' with promises := s'.promises ++ [(name, p)] }
  interrupted : ∀ {owner s s'} (flag : Bool), R owner s s' →
    R owner (s.setInterrupted flag).1 (s'.setInterrupted flag).1
  withEnvironment : ∀ {owner owner' s s' env}, R owner s s' → scope owner' env →
    R owner' (s.withEnvironment env) (s'.withEnvironment env)
  define : ∀ {owner env} (name : String) (v : Value), scope owner env →
    scope owner (env.define name v)
  defineAll : ∀ {owner env} (bindings : List (String × Value)), scope owner env →
    scope owner (env.defineAll bindings)
  openFrame : ∀ {owner env}, scope owner env → scope owner env.openFrame
  closeFrame : ∀ {owner env}, scope owner env → scope owner env.closeFrame
  setModule : ∀ {owner env} (name : Option ModuleName), scope owner env →
    scope name { env with module := name }

/-- From two sessions, two computations come to the same end, in sessions that are related again. -/
def Meets {α : Type} (R : Session → Session → Prop) (s s' : Session) (x y : EvalM α) : Prop :=
  Agree (fun m m' => R { s with machine := m } { s' with machine := m' }) (x s.machine) (y s'.machine)

/-- Two computations meet, and make a promise. -/
structure Makes (R : Session → Session → Prop) (made : Machine → PromiseId → Prop) (s s' : Session)
    (x y : EvalM PromiseId) : Prop where
  meets : Meets R s s' x y
  made : ∀ p m, x s.machine = .ok p m → made m p

/-- What engines are to run for sessions comes to the same ends. Outcomes that hosts supply are among
those that are given. -/
structure Mirror.Engines (R : Option ModuleName → Session → Session → Prop)
    (made : Machine → PromiseId → Prop) (given : Outcome → Prop) (label : Labelling) (E E' : Engine) :
    Prop where
  eval : ∀ {owner s s'} (e : Expr), R owner s s' →
    Meets (R owner) s s' (E.eval e) (E'.eval (e.relabel label owner))
  evalItems : ∀ {owner s s'} (es : List Expr), R owner s s' →
    Meets (R owner) s s' (E.evalItems es) (E'.evalItems (Expr.relabelItems label owner es))
  evalBoth : ∀ {owner s s'} (a b : Expr), R owner s s' →
    Meets (R owner) s s' (Session.evalBoth E a b)
      (Session.evalBoth E' (a.relabel label owner) (b.relabel label owner))
  call : ∀ {owner s s'} (function : Expr) (args : List Value), R owner s s' →
    Meets (R owner) s s' (do E.callFunction (← E.eval function) args)
      (do E'.callFunction (← E'.eval (function.relabel label owner)) args)
  drain : ∀ {owner s s'} (fromBack : Bool) (count : Nat), R owner s s' →
    Meets (R owner) s s' (Session.drain E fromBack count 0) (Session.drain E' fromBack count 0)
  new : ∀ {owner s s'}, R owner s s' → Makes (R owner) made s s' Promise.new Promise.new
  settled : ∀ {owner s s' o}, R owner s s' → given o →
    Makes (R owner) made s s' (Promise.settled E.deliver o) (Promise.settled E'.deliver o)
  fulfil : ∀ {owner s s' p o}, R owner s s' → made s.machine p → given o →
    Meets (R owner) s s' (Promise.fulfil E.deliver p o) (Promise.fulfil E'.deliver p o)
  map : ∀ {owner s s'} (p : PromiseId) (function : Expr), R owner s s' →
    Makes (R owner) made s s' (deriveWith E p function .apply)
      (deriveWith E' p (function.relabel label owner) .apply)
  mapEither : ∀ {owner s s'} (p : PromiseId) (function : Expr), R owner s s' →
    Makes (R owner) made s s' (deriveWith E p function .applyEither)
      (deriveWith E' p (function.relabel label owner) .applyEither)
  all : ∀ {owner s s'} (operands : List Value), R owner s s' →
    Makes (R owner) made s s' (Promise.all E.deliver operands) (Promise.all E'.deliver operands)
  observe : ∀ {owner s s' p} (tag : String), R owner s s' → made s.machine p →
    Meets (R owner) s s' (Promise.onComplete E.deliver p (.notify (.report tag)))
      (Promise.onComplete E'.deliver p (.notify (.report tag)))
  build : ∀ {owner s s'} (name : ModuleName) (exports : List String) (functions : List FunctionDecl),
    R owner s s' → Meets (R owner) s s' (evalModuleBuild name exports functions)
      (evalModuleBuild name exports (Expr.relabelFunctions label none functions))

theorem andThen_bind {α β : Type} (s : Session) (x : EvalM β) (f : β → EvalM α)
    (go : Session → α → Session × Response) :
    s.andThen (x >>= f) go = s.andThen x fun s b => s.andThen (f b) go := by
  unfold andThen perform
  simp only [Bind.bind, EStateM.bind]
  cases x s.machine <;> rfl

namespace Mirror

variable {R : Option ModuleName → Session → Session → Prop}
  {scope : Option ModuleName → Environment → Prop} {made : Machine → PromiseId → Prop}
  (M : Mirror R scope made) {owner : Option ModuleName} {s s' : Session} {α : Type}
include M

/-- What is run comes to the same end on both sides, and so does what follows. -/
theorem andThen {x y : EvalM α} {go go' : Session → α → Session × Response}
    (hx : Meets (R owner) s s' x y)
    (hgo : ∀ a m m', x s.machine = .ok a m → R owner { s with machine := m } { s' with machine := m' } →
      Replies (R owner) (go { s with machine := m } a) (go' { s' with machine := m' } a)) :
    Replies (R owner) (s.andThen x go) (s'.andThen y go') := by
  unfold Meets at hx
  unfold Session.andThen perform
  generalize hr : x s.machine = r, y s'.machine = r' at hx
  cases hx with
  | ok a h => exact hgo a _ _ hr h
  | error e h => exact ⟨h, (M.view h).aborted e⟩

/-- As `andThen`, if it makes no difference what has been run. -/
theorem andAlways {x y : EvalM α} {go go' : Session → α → Session × Response}
    (hx : Meets (R owner) s s' x y)
    (hgo : ∀ a t t', R owner t t' → Replies (R owner) (go t a) (go' t' a)) :
    Replies (R owner) (s.andThen x go) (s'.andThen y go') :=
  M.andThen hx fun a _ _ _ => hgo a _ _

theorem withPromise (h : R owner s s') {name : String} {go go' : PromiseId → Session × Response}
    (hgo : ∀ p, made s.machine p → Replies (R owner) (go p) (go' p)) :
    Replies (R owner) (s.withPromise name go) (s'.withPromise name go') := by
  unfold Session.withPromise
  rw [(M.view h).promise?]
  cases hp : s.promise? name with
  | none => exact ⟨h, rfl⟩
  | some p => exact hgo p (M.finds h hp)

/-- The environment of both sessions is changed in the same way. -/
theorem changed (h : R owner s s') {owner' : Option ModuleName} (change : Environment → Environment)
    (hchange : scope owner' (change s.environment)) :
    R owner' (s.withEnvironment (change s.environment))
      (s'.withEnvironment (change s'.environment)) := by
  rw [(M.view h).environment]
  exact M.withEnvironment h hchange

theorem publish (h : R owner s s') (name : String) {p : PromiseId} (hp : made s.machine p)
    (hidden : Bool) : R owner (s.publish name p hidden) (s'.publish name p hidden) := by
  have hnamed := M.named name h hp
  cases hidden with
  | true => exact hnamed
  | false => exact M.changed hnamed (·.define name (.promise p)) (M.define _ _ (M.inScope hnamed))

/-! ### What is made of a result -/

theorem conclude (h : R owner s s') (name : Option String) (v : Value) :
    Replies (R owner) (Session.conclude name s v) (Session.conclude name s' v) := by
  refine ⟨M.save name v h, ?_⟩
  simp only [Session.conclude, (M.view h).snapshot]

theorem concludeForced (h : R owner s s') (name : Option String) (v : Value) :
    Replies (R owner) (Session.concludeForced name s v) (Session.concludeForced name s' v) := by
  unfold Session.concludeForced
  split
  · rw [(M.view h).outcome?]
    split
    · exact M.conclude h name _
    · exact ⟨h, by simp only [(M.view h).report]⟩
    · exact ⟨M.save name _ h, rfl⟩
  · exact M.conclude h name v

theorem concludePromise (h : R owner s s') (name : String) (hidden : Bool) {p : PromiseId}
    (hp : made s.machine p) :
    Replies (R owner) (Session.concludePromise name hidden s p)
      (Session.concludePromise name hidden s' p) := by
  refine ⟨M.publish h name hp hidden, ?_⟩
  simp only [Session.concludePromise, (M.view h).promise]

/-- The guards that are shown are those of the relabelled pattern; they look the same. -/
theorem concludeMatch (h : R owner s s') (label : Labelling) (defines : Bool) (keys : List Value)
    (verdict : Matching) :
    Replies (R owner) (Session.concludeMatch defines s (keys, verdict))
      (Session.concludeMatch defines s' (keys, verdict.mapGuards (Expr.relabel label owner))) := by
  have hview := M.view h
  cases verdict with
  | noMatch => exact ⟨h, by simp only [Session.concludeMatch, Matching.mapGuards, hview.snapshot]⟩
  | pending p =>
    exact ⟨h, by simp only [Session.concludeMatch, Matching.mapGuards, hview.snapshot, hview.nameOf?]⟩
  | matched found =>
    have hkinds : (found.guards.map (Expr.relabel label owner)).map Expr.kindName =
        found.guards.map Expr.kindName := by
      rw [List.map_map]
      exact List.map_congr_left fun e _ => e.kindName_relabel label owner
    refine ⟨?_, by simp only [Session.concludeMatch, Matching.mapGuards, hview.snapshot, hkinds]⟩
    cases defines with
    | false => exact h
    | true => exact M.changed h (·.defineAll found.bindings) (M.defineAll _ (M.inScope h))

/-- The verdict of a match with keys that are there. -/
theorem verdict (h : R owner s s') (label : Labelling) (value : Value) (pattern : Pattern)
    (keys : List Value) (defines : Bool) :
    Replies (R owner)
      (s.andThen (do
        let verdict ← EvalM.gets fun m => pattern.matching m.sight value keys
        let verdict ← EvalM.ofExcept verdict
        return (keys, verdict)) (Session.concludeMatch defines))
      (s'.andThen (do
        let verdict ← EvalM.gets fun m =>
          (pattern.relabel label owner).matching m.sight value keys
        let verdict ← EvalM.ofExcept verdict
        return (keys, verdict)) (Session.concludeMatch defines)) := by
  have hmatch : (pattern.relabel label owner).matching s'.machine.sight value keys =
      (pattern.matching s.machine.sight value keys).map
        (Matching.mapGuards (Expr.relabel label owner)) := by
    rw [(M.view h).sight, Pattern.matching_relabel]
  simp only [Session.andThen, perform, EvalM.gets, Bind.bind, EStateM.bind, hmatch]
  cases pattern.matching s.machine.sight value keys with
  | error e => exact ⟨h, (M.view h).aborted (.error e)⟩
  | ok verdict => exact M.concludeMatch h label defines keys verdict

/-! ### Commands -/

section

variable {given : Outcome → Prop} {label : Labelling} {E E' : Engine}
  (hE : Mirror.Engines R made given label E E') (h : R owner s s')
include hE h

theorem tryMatch (value : Value) (pattern : Pattern) (keys : Option (List Value)) (defines : Bool) :
    Replies (R owner) (s.andThen (matchNow E value pattern keys) (Session.concludeMatch defines))
      (s'.andThen (matchNow E' value (pattern.relabel label owner) keys)
        (Session.concludeMatch defines)) := by
  cases keys with
  | some keys => exact M.verdict h label value pattern keys defines
  | none =>
    simp only [matchNow, Pattern.keys_relabel, andThen_bind]
    refine M.andAlways (hE.evalItems pattern.keys h) fun keys _ _ ht => ?_
    simpa only [andThen_bind] using M.verdict ht label value pattern keys defines

omit hE h in
/-- A promise that is made on both sides is made known to the hosts. -/
theorem makes {x y : EvalM PromiseId} (hx : Makes (R owner) made s s' x y) (name : String)
    (hidden : Bool) :
    Replies (R owner) (s.andThen x (Session.concludePromise name hidden))
      (s'.andThen y (Session.concludePromise name hidden)) :=
  M.andThen hx.meets fun p m _ hr ht => M.concludePromise ht name hidden (hx.made p m hr)

/-- Whatever the hosts ask for, they are shown the same. -/
theorem runWith {c : Command} (hc : c.Supplies given (scope owner) s.environment) :
    Replies (R (c.ownerAfter owner)) (s.runWith E c) (s'.runWith E' (c.relabel label owner)) := by
  have hview := M.view h
  have hscope := M.inScope h
  cases c with
  | eval e save => exact M.andAlways (hE.eval e h) fun v _ _ ht => M.conclude ht save v
  | force e save => exact M.andAlways (hE.eval e h) fun v _ _ ht => M.concludeForced ht save v
  | call function args save =>
    exact M.andAlways (hE.call function args h) fun v _ _ ht => M.conclude ht save v
  | runTasks count fromBack =>
    refine M.andAlways (hE.drain fromBack count h) fun ran t t' ht => ⟨ht, ?_⟩
    simp only [(M.view ht).queue, (M.view ht).savedNow]
  | inspect e places =>
    refine M.andAlways (hE.eval e h) fun v t t' ht => ⟨ht, ?_⟩
    simp only [(M.view ht).inspect]
  | compare a b => exact M.andAlways (hE.evalBoth a b h) fun r _ _ ht => ⟨ht, rfl⟩
  | tryMatch value pattern keys defines => exact M.tryMatch hE h value pattern keys defines
  | promise name outcome hidden =>
    cases outcome with
    | some o => exact M.makes (hE.settled h hc) name hidden
    | none => exact M.makes (hE.new h) name hidden
  | fulfil name o =>
    refine M.withPromise h fun p hp => M.andAlways (hE.fulfil h hp hc) fun _ t t' ht => ⟨ht, ?_⟩
    simp only [(M.view ht).promise, (M.view ht).savedNow]
  | peek name =>
    refine M.withPromise h fun p _ => ⟨h, ?_⟩
    simp only [hview.promise, hview.unordered, hview.quoted?, hview.isPending]
  | map name source function hidden =>
    exact M.withPromise h fun p _ => M.makes (hE.map p function h) name hidden
  | mapEither name source function hidden =>
    exact M.withPromise h fun p _ => M.makes (hE.mapEither p function h) name hidden
  | all name operands hidden => exact M.makes (hE.all operands h) name hidden
  | observe name tag =>
    refine M.withPromise h fun p hp => M.andAlways (hE.observe tag h hp) fun _ t t' ht => ⟨ht, ?_⟩
    simp only [(M.view ht).promise]
  | same a b => exact M.withPromise h fun p _ => M.withPromise h fun q _ => ⟨h, rfl⟩
  | interrupt => exact ⟨M.interrupted true h, rfl⟩
  | reset => exact ⟨M.interrupted false h, rfl⟩
  | define name value =>
    refine ⟨M.changed h (·.define name value) (M.define name value hscope), ?_⟩
    simp only [Command.relabel, Session.runWith, hview.environment]
  | defineAs name e =>
    refine M.andAlways (hE.eval e h) fun v t t' ht => ⟨M.changed ht (·.define name v) ?_, ?_⟩
    · exact M.define name v (M.inScope ht)
    · simp only [(M.view ht).environment]
  | openFrame =>
    refine ⟨M.changed h (·.openFrame) (M.openFrame hscope), ?_⟩
    simp only [Command.relabel, Session.runWith, hview.environment]
  | closeFrame =>
    refine ⟨M.changed h (·.closeFrame) (M.closeFrame hscope), ?_⟩
    simp only [Command.relabel, Session.runWith, hview.environment]
  | showEnvironment => exact ⟨h, congrArg Response.environment hview.environment⟩
  | showForCall =>
    refine ⟨h, ?_⟩
    simp only [Command.relabel, Session.runWith, hview.environment]
  | lookup name =>
    refine ⟨h, ?_⟩
    simp only [Command.relabel, Session.runWith, hview.environment, hview.snapshot]
  | enterCall frame max =>
    simp only [Command.relabel, Session.runWith, hview.environment]
    split
    · rename_i env henv
      exact ⟨M.withEnvironment h (hc env henv), rfl⟩
    · exact ⟨h, by simp only [hview.report]⟩
  | setModule name =>
    exact ⟨M.changed h ({ · with module := name }) (M.setModule name hscope), rfl⟩
  | register name exports functions =>
    refine M.andAlways (hE.build name exports functions h) fun v t t' ht => ⟨ht, ?_⟩
    simp only [(M.view ht).snapshot, (M.view ht).modules]
  | showModule name names =>
    simp only [Command.relabel, Session.runWith, hview.modules]
    split
    · exact ⟨h, by simp only [hview.snapshot, hview.resolution]⟩
    · exact ⟨h, rfl⟩

end

end Mirror

end Session

end Deferral
