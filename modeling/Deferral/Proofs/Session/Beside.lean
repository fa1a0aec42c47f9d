import Deferral.Proofs.Eval.Abreast
import Deferral.Proofs.Session.Mirror
import Deferral.Proofs.Session.Reach

/-!
# Two sessions side by side

`Session.Beside` relates two sessions whose hosts ask for the same, the second one with the code it
hands over relabelled. If the engines go abreast, so do the sessions: `Beside.runWith` shows of each
command that the hosts are shown the same and that the sessions are beside each other again. The code
of a host is owned by the module that the host has set, and by none if it never sets one.

Beside itself, a session shows that its store is in order: whatever waits is for a promise that has
been made (`Reachable.fenced`).
-/

set_option autoImplicit false

namespace Deferral

theorem Directory.inspect_relabel (label : Labelling) (owner : FunctionId → Option ModuleName)
    (d : Directory) (v : Value) (places : List UInt64) :
    (d.relabel label owner).inspect v places = d.inspect v places := by
  have hparams : ∀ (home : Option ModuleName) (f : Option Function),
      (f.map (Function.relabelAs label home)).map Function.params = f.map Function.params := by
    intro home f
    cases f with
    | none => rfl
    | some f => exact congrArg some (f.params_relabelAs label home)
  have hcaptures : ∀ (home : Option ModuleName) (f : Option Function),
      (f.map (Function.relabelAs label home)).map (fun f => f.captures.reverse.map (·.name)) =
        f.map fun f => f.captures.reverse.map (·.name) := by
    intro home f
    cases f <;> rfl
  unfold inspect
  simp only [snapshot_relabel, unordered_relabel, labels_relabel, quoted?_relabel]
  cases v with
  | function id => simp only [relabel, hparams, hcaptures]
  | _ => rfl

/-! ## What commands run -/

/-- The promise that a computation makes first and gives back at its end is there. -/
theorem Conduct.has_made {context : Context} {g : PromiseId → EvalM Unit}
    (hg : ∀ q, Conduct context (· = ·) (g q)) {m m₁ : Machine} {q : PromiseId}
    (h : (Promise.new >>= fun q => g q >>= fun _ => Pure.pure q) m = .ok q m₁) : m₁.store.Has q := by
  rw [Promise.new_bind] at h
  obtain ⟨_, m₂, hrun, hend⟩ := EvalM.ok_of_bind h
  cases hend
  have hends := (hg m.store.fresh.1 (m.withStore m.store.fresh.2)).evolves
  rw [hrun] at hends
  exact hends.has (Store.has_fresh.2 (.inr rfl))

namespace Conducted

variable {E : Engine} (h : Conducted E) {m m₁ : Machine} {q : PromiseId}
include h

theorem has_settled {o : Outcome} (hr : Promise.settled E.deliver o m = .ok q m₁) : m₁.store.Has q :=
  Conduct.has_made (fun q => Conduct.composed.fulfil h.deliver q o) hr

theorem has_derive {p : PromiseId} {handler : Handler}
    (hr : Promise.derive E.deliver p handler m = .ok q m₁) : m₁.store.Has q :=
  Conduct.has_made (fun q => Conduct.composed.onComplete h.deliver p (.derive q handler)) hr

theorem has_all {operands : List Value} (hr : Promise.all E.deliver operands m = .ok q m₁) :
    m₁.store.Has q := by
  unfold Promise.all at hr
  cases hplaces : Promise.places 0 operands with
  | nil =>
    rw [hplaces] at hr
    exact h.has_settled hr
  | cons a rest =>
    rw [hplaces] at hr
    have hwatch : ∀ result, Conduct E.context (· = ·) (Promise.onStore
        (Store.addGather ⟨operands, (a :: rest).length, false, result⟩) >>= fun id =>
          Promise.watch E.deliver id (a :: rest)) := fun result =>
      .bind (Conduct.composed.gathers _) fun id => Conduct.composed.watch h.deliver id _
    exact Conduct.has_made hwatch hr

theorem has_deriveWith {p : PromiseId} {function : Expr} {handler : Value → Environment → Handler}
    (hr : Session.deriveWith E p function handler m = .ok q m₁) : m₁.store.Has q := by
  obtain ⟨f, m₂, -, hr⟩ := EvalM.ok_of_bind hr
  exact h.has_derive hr

end Conducted

/-- Where two runs are, when tasks have been taken out of the queue as well. -/
structure Onward (R : Pairing) (m m₁ m₁' : Machine) : Prop where
  alike : Alike R m₁ m₁'
  promises : m.store.promises.size ≤ m₁.store.promises.size
  module : m₁.rest.env.module = m.rest.env.module
  queued : ∀ t ∈ m₁.rest.queue, m₁.store.Owns R.fence t.target

section

variable {R : Pairing} {m m₁ m₁' m₂ m₂' : Machine}

theorem After.onward (h : After R m m₁ m₁')
    (hqueued : ∀ t ∈ m.rest.queue, m.store.Owns R.fence t.target) : Onward R m m₁ m₁' := by
  refine ⟨h.alike, h.grown.store.promises, h.module, fun t ht => ?_⟩
  obtain ⟨more, hqueue, hmore⟩ := h.grown.queue
  rw [hqueue] at ht
  rcases List.mem_append.1 ht with ht | ht
  · exact h.grown.store.owns (hqueued t ht)
  · exact hmore t ht

theorem Onward.trans (h : Onward R m m₁ m₁') (h' : Onward R m₁ m₂ m₂') : Onward R m m₂ m₂' :=
  ⟨h'.alike, Nat.le_trans h.promises h'.promises, h'.module.trans h.module, h'.queued⟩

end

namespace Session

theorem mem_of_takeTask {fromBack : Bool} {queue rest : List Task} {task : Task}
    (h : takeTask fromBack queue = some (task, rest)) :
    task ∈ queue ∧ ∀ t ∈ rest, t ∈ queue := by
  unfold takeTask at h
  split at h
  · split at h
    · cases h
    · rename_i first others hreverse
      cases h
      have hqueue : queue = others.reverse ++ [task] := by
        rw [← List.reverse_reverse queue, hreverse, List.reverse_cons]
      rw [hqueue]
      exact ⟨List.mem_append.2 (.inr (.head _)), fun t ht => List.mem_append.2 (.inl ht)⟩
  · split at h
    · cases h
    · cases h
      exact ⟨.head _, fun t ht => .tail _ ht⟩

end Session

namespace Abreast

variable {R : Pairing} {owner : Option ModuleName} {E E' : Engine} (h : Abreast R E E')
include h

theorem evalBoth (a b : Expr) :
    Parallel R owner (Session.evalBoth E a b)
      (Session.evalBoth E' (a.relabel R.label owner) (b.relabel R.label owner)) :=
  .bind (.outcome (h.eval a owner)) fun _ => .bind (.outcome (h.eval b owner)) fun _ =>
    .bind (.ofExcept _) fun _ => .bind (.ofExcept _) fun _ => .pure _

theorem deriveWith (source : PromiseId) (function : Expr) {handler : Value → Environment → Handler}
    (hhandler : ∀ f env, R.Rewrites (handler f env) (handler f env)) :
    Parallel R owner (Session.deriveWith E source function handler)
      (Session.deriveWith E' source (function.relabel R.label owner) handler) :=
  .bind (h.eval function owner) fun f => .environment fun env _ =>
    .derive h.deliver source (hhandler f env)

/-- The tasks that are run are for promises that exist. -/
theorem drain (fromBack : Bool) (limit count : Nat) (m m' : Machine) (hm : Alike R m m')
    (hqueued : ∀ t ∈ m.rest.queue, m.store.Owns R.fence t.target) :
    Agree (Onward R m) (Session.drain E fromBack limit count m)
      (Session.drain E' fromBack limit count m') := by
  induction limit generalizing count m m' with
  | zero => exact .ok count ((After.refl hm).onward hqueued)
  | succ limit ih =>
    have htaken : Session.takeTask fromBack m'.rest.queue = Session.takeTask fromBack m.rest.queue :=
      by rw [hm.queue]
    simp only [Session.drain, EvalM.gets, Bind.bind, EStateM.bind, htaken]
    cases hfound : Session.takeTask fromBack m.rest.queue with
    | none => exact .ok count ((After.refl hm).onward hqueued)
    | some taken =>
      obtain ⟨task, rest⟩ := taken
      obtain ⟨htask, hrest⟩ := Session.mem_of_takeTask hfound
      have hstart : Onward R m (m.withQueue rest) (m'.withQueue rest) :=
        ⟨hm.withQueue rest, Nat.le_refl _, rfl, fun t ht => hqueued t (hrest t ht)⟩
      have hrun := h.runTask hstart.alike (hqueued task htask)
      refine hrun.bind (fun m₁ m₁' h₁ => hstart.trans (h₁.onward hstart.queued)) fun _ m₁ m₁' h₁ => ?_
      have hran := hstart.trans (h₁.onward hstart.queued)
      exact (ih (count + 1) m₁ m₁' hran.alike hran.queued).mono fun _ _ => hran.trans

end Abreast

/-- A pairing of whole sessions: every promise is one of the session's own, and both logs began
empty. -/
def Pairing.whole (W : Rewriting) : Pairing := ⟨W, ⟨0, 0⟩, ([], [])⟩

/-- A machine is alike to itself. -/
theorem Alike.plain {m : Machine} (h : m.store.Fenced ⟨0, 0⟩) : Alike (.whole .plain) m m where
  fenced := h
  store := .refl (Rewriting.rewrites_plain rfl) _
  env := rfl
  functions := by
    have hsame : Function.relabel Labelling.plain = id := funext Function.relabel_plain
    change _ = m.rest.functions.map (Function.relabel .plain)
    rw [hsame, Array.map_id]
  modules := rfl
  held := rfl
  interrupted := rfl
  queue := rfl
  logged := ⟨m.rest.log, (List.append_nil _).symm, (List.append_nil _).symm⟩
  keeps _ := False.elim

theorem Store.owns_zero {η : Type} {s : Store η} {p : PromiseId} : s.Owns ⟨0, 0⟩ p ↔ s.Has p :=
  ⟨fun h => h.2, fun h => ⟨Nat.zero_le _, h⟩⟩

namespace Session

/-! ## Sessions -/

/-- The second session is the first with all code in it relabelled. The code that the host hands over
next has the owner given. -/
structure Beside (W : Rewriting) (owner : Option ModuleName) (s s' : Session) : Prop where
  context : s'.context = s.context
  fuel : s'.fuel = s.fuel
  promises : s'.promises = s.promises
  saved : s'.saved = s.saved
  alike : Alike (.whole W) s.machine s'.machine
  module : s.machine.rest.env.module = owner
  known : ∀ e ∈ s.promises, s.machine.store.Has e.2
  queued : ∀ t ∈ s.machine.rest.queue, s.machine.store.Has t.target

section

variable {W : Rewriting} {owner : Option ModuleName} {α : Type} {s s' : Session}

namespace Beside

variable (h : Beside W owner s s')
include h

theorem directory : s'.directory = s.directory.relabel W.label s.machine.homeOf := h.alike.directory

theorem view : s.SameView s' where
  promises := h.promises
  saved := h.saved
  environment := h.alike.env
  modules := h.alike.modules
  queue := h.alike.queue
  outcome? := by
    funext p
    rw [h.alike.store.outcome?]
  isPending := by
    funext p
    rw [h.alike.store.isPending]
  snapshot := h.alike.snapshot
  report := h.alike.report
  promise := by rw [h.directory, Directory.promise_relabel]
  inspect := by
    funext v places
    rw [h.directory, Directory.inspect_relabel]
  unordered := by rw [h.directory, Directory.unordered_relabel]
  quoted? := by rw [h.directory, Directory.quoted?_relabel]

theorem has_of_promise? {name : String} {p : PromiseId} (hp : s.promise? name = some p) :
    s.machine.store.Has p := by
  obtain ⟨newer, older, hsplit, -⟩ := List.lookup_eq_some_iff.1 hp
  refine h.known (name, p) (List.mem_reverse.1 ?_)
  rw [hsplit]
  exact List.mem_append.2 (.inr (.head _))

/-! ### Changes on both sides -/

theorem save (name : Option String) (v : Value) :
    Beside W owner (s.save name v) (s'.save name v) := by
  cases name with
  | none => exact h
  | some name =>
    exact ⟨h.context, h.fuel, h.promises, congrArg (· ++ [(name, v)]) h.saved, h.alike, h.module,
      h.known, h.queued⟩

theorem named (name : String) {p : PromiseId} (hp : s.machine.store.Has p) :
    Beside W owner { s with promises := s.promises ++ [(name, p)] }
      { s' with promises := s'.promises ++ [(name, p)] } := by
  refine ⟨h.context, h.fuel, congrArg (· ++ [(name, p)]) h.promises, h.saved, h.alike, h.module,
    fun e he => ?_, h.queued⟩
  rcases List.mem_append.1 he with he | he
  · exact h.known e he
  · rw [List.mem_singleton.1 he]
    exact hp

/-- The sessions after a run on both sides. -/
theorem onward {m m' : Machine} (hm : Onward (.whole W) s.machine m m') :
    Beside W owner { s with machine := m } { s' with machine := m' } :=
  ⟨h.context, h.fuel, h.promises, h.saved, hm.alike, hm.module.trans h.module,
    fun e he => Nat.lt_of_lt_of_le (h.known e he) hm.promises,
    fun t ht => Store.owns_zero.1 (hm.queued t ht)⟩

/-- If what is run leaves the queue to itself. -/
theorem meets {x y : EvalM α} (hx : Agree (After (.whole W) s.machine) (x s.machine) (y s'.machine)) :
    Meets (Beside W owner) s s' x y :=
  hx.mono fun _ _ hm => h.onward (hm.onward fun t ht => Store.owns_zero.2 (h.queued t ht))

theorem parallel {x y : EvalM α} (hx : Parallel (.whole W) owner x y) :
    Meets (Beside W owner) s s' x y :=
  h.meets (hx _ _ h.alike (.inl h.module))

/-- A promise that is made of others by running code on both sides. -/
theorem makes {x y : EvalM PromiseId} (hx : Parallel (.whole W) owner x y)
    (hmade : ∀ m p m₁, x m = .ok p m₁ → m₁.store.Has p) :
    Makes (Beside W owner) (fun m p => m.store.Has p) s s' x y :=
  ⟨h.parallel hx, fun p m => hmade _ p m⟩

end Beside

/-- Sessions beside each other show the same, and so they do whatever they do by themselves. -/
theorem mirror_beside (W : Rewriting) :
    Mirror (Beside W) (fun owner env => env.module = owner) fun m p => m.store.Has p where
  view h := h.view
  inScope h := h.module
  finds h hp := h.has_of_promise? hp
  save name v h := h.save name v
  named name h hp := h.named name hp
  interrupted flag h := ⟨h.context, h.fuel, h.promises, h.saved, h.alike.withInterrupted flag, h.module,
    h.known, h.queued⟩
  withEnvironment h henv :=
    ⟨h.context, h.fuel, h.promises, h.saved, h.alike.withEnv _, henv, h.known, h.queued⟩
  define _ _ h := h
  defineAll _ h := (Environment.module_defineAll _ _).trans h
  openFrame h := h
  closeFrame h := (Environment.module_closeFrame _).trans h
  setModule _ _ := rfl

/-- Engines that go abreast bring them to the same ends. -/
theorem engines_beside {E E' : Engine} (hE : Abreast (.whole W) E E') (hconduct : Conducted E) :
    Mirror.Engines (Beside W) (fun m p => m.store.Has p) (fun _ => True) W.label E E' where
  eval {owner _ _} e h := h.parallel (hE.eval e owner)
  evalItems es h := h.parallel (hE.evalItems es)
  evalBoth a b h := h.parallel (hE.evalBoth a b)
  call {owner _ _} function args h :=
    h.parallel (.bind (hE.eval function owner) fun f => hE.whenReady f (.call args none))
  drain fromBack count h := (hE.drain fromBack count 0 _ _ h.alike fun t ht =>
    Store.owns_zero.2 (h.queued t ht)).mono fun _ _ hm => h.onward hm
  new {owner _ _} h := by
    have hnew : Parallel (.whole W) owner (Promise.new >>= pure) (Promise.new >>= pure) :=
      .new fun p _ _ hm _ _ => .ok p (.refl hm)
    refine h.makes hnew fun m p m₁ hr => ?_
    cases hr
    exact Store.has_fresh.2 (.inr rfl)
  settled h _ := h.makes (.settled hE.deliver _) fun _ _ _ => hconduct.has_settled
  fulfil h hp _ := h.meets (hE.deliver.fulfil h.alike (Store.owns_zero.2 hp) _)
  map p function h := h.makes (hE.deriveWith p function .apply) fun _ _ _ => hconduct.has_deriveWith
  mapEither p function h :=
    h.makes (hE.deriveWith p function .applyEither) fun _ _ _ => hconduct.has_deriveWith
  all operands h := h.makes (.all hE.deliver operands) fun _ _ _ => hconduct.has_all
  observe tag h hp := h.meets (hE.deliver.onComplete h.alike (.notify (.report tag)) trivial)
  build name exports functions h := h.parallel (.evalModuleBuild name exports functions)

/-- Whatever the hosts ask for, they are shown the same. -/
theorem Beside.runWith {E E' : Engine} (h : Beside W owner s s') (hE : Abreast (.whole W) E E')
    (hconduct : Conducted E) (c : Command) :
    Replies (Beside W (c.ownerAfter owner)) (s.runWith E c)
      (s'.runWith E' (c.relabel W.label owner)) := by
  refine (mirror_beside W).runWith (engines_beside hE hconduct) h ?_
  cases c with
  | promise name outcome hidden => cases outcome <;> trivial
  | enterCall frame max =>
    intro env' henter
    rw [Environment.enterCall] at henter
    split at henter
    · cases henter
    · cases henter
      exact h.module
  | _ => trivial

end

/-! ## One session -/

/-- An engine goes abreast of itself. -/
theorem abreast_engine (R : Pairing) (hplain : R.label = .plain) (context : Context) (fuel : Nat) :
    Abreast R (Deferral.engine context fuel) (Deferral.engine context fuel) := by
  induction fuel with
  | zero => exact abreast_exhausted R context
  | succ n ih =>
    rw [engine_succ]
    exact ⟨rfl, fun e _ => ih.evalStep e, fun w _ => ih.proceedStep w,
      fun frame v _ => ih.resumeStep_plain hplain frame v, ih.deliverStep⟩

end Session

end Deferral
