import Deferral.Proofs.Eval.Run
import Deferral.Proofs.Module.RelabelMachine
import Deferral.Proofs.Promise.Fence

/-!
# Two runs side by side

Two machines are `Alike` if the second is the first with its code relabelled, and with another log to
which the same has been added since the runs began. Two computations are `Parallel` if from machines
that are alike they come to the same end in machines that are alike, wherever code of an owner runs. On
the way the first machine only grows (`Machine.Grown`): promises that are old by the fence of the
pairing are not settled, nothing is taken out of the queue, and what is put there is for something new.

This module has one lemma for each way of putting computations together, and one for each operation on
promises. An operation that settles a promise asks for a new one, and one that runs a continuation asks
for one that is for something new.
-/

set_option autoImplicit false

namespace Deferral

/-- What two runs side by side have in common: how names are written in the code of the second and which
modules are not lost, which promises are new, and what was in the two logs before. -/
structure Pairing extends Rewriting where
  fence : Fence
  logs : List LogEntry × List LogEntry

/-- What can become of a machine when only new promises are settled. -/
structure Machine.Grown (b : Fence) (m m' : Machine) : Prop where
  store : m.store.Grown b m'.store
  queue : ∃ more, m'.rest.queue = m.rest.queue ++ more ∧ ∀ t ∈ more, m'.store.Owns b t.target

/-- The second machine is the first with its code relabelled, and both have logged the same. The modules
that are not to be lost are held. -/
structure Alike (R : Pairing) (m m' : Machine) : Prop where
  fenced : m.store.Fenced R.fence
  store : m.store.Rel R.Rewrites m'.store
  env : m'.rest.env = m.rest.env
  functions : m'.rest.functions = m.rest.functions.map (Function.relabel R.label)
  modules : m'.rest.modules = m.rest.modules
  held : m'.rest.held = m.rest.held
  interrupted : m'.rest.interrupted = m.rest.interrupted
  queue : m'.rest.queue = m.rest.queue
  logged : ∃ entries, m.rest.log = entries ++ R.logs.1 ∧ m'.rest.log = entries ++ R.logs.2
  keeps : ∀ module : Module, R.kept module.name → m.rest.held module = true

/-- The machines in which two runs are, of which the first has started from `m`. -/
structure After (R : Pairing) (m m₁ m₁' : Machine) : Prop where
  alike : Alike R m₁ m₁'
  grown : m.Grown R.fence m₁
  module : m₁.rest.env.module = m.rest.env.module

/-- Two results are the same, in machines related by `P`. -/
inductive Agree {α : Type} (P : Machine → Machine → Prop) :
    EStateM.Result Abort Machine α → EStateM.Result Abort Machine α → Prop
  | ok (a : α) {m m' : Machine} (h : P m m') : Agree P (.ok a m) (.ok a m')
  | error (e : Abort) {m m' : Machine} (h : P m m') : Agree P (.error e m) (.error e m')

/-- From machines that are alike, in code of this owner, two computations come to the same end. -/
def Parallel (R : Pairing) (owner : Option ModuleName) {α : Type} (x y : EvalM α) : Prop :=
  ∀ m m', Alike R m m' → R.RunsAs owner m.rest.env.module → Agree (After R m) (x m) (y m')

/-- Two ways of running continuations come to the same end, if these are for something new. -/
def InStep (R : Pairing) (d d' : Continuation Handler → Outcome → EvalM Unit) : Prop :=
  ∀ k k' o m m', Continuation.Rel R.Rewrites k k' → Alike R m m' → m.store.Admits R.fence k →
    Agree (After R m) (d k o m) (d' k' o m')

namespace Machine.Grown

variable {b : Fence} {m m' m'' : Machine}

/-- The store and the queue say it all. -/
theorem of_store (h : m.store.Grown b m'.store) (hq : m'.rest.queue = m.rest.queue) : m.Grown b m' :=
  ⟨h, [], by rw [hq, List.append_nil], fun _ ht => absurd ht List.not_mem_nil⟩

theorem refl (m : Machine) : m.Grown b m := of_store (.refl _) rfl

theorem trans (h : m.Grown b m') (h' : m'.Grown b m'') : m.Grown b m'' := by
  obtain ⟨more, hq, hmore⟩ := h.queue
  obtain ⟨more', hq', hmore'⟩ := h'.queue
  refine ⟨h.store.trans h'.store, more ++ more', by rw [hq', hq, List.append_assoc], fun t ht => ?_⟩
  rcases List.mem_append.1 ht with ht | ht
  · exact h'.store.owns (hmore t ht)
  · exact hmore' t ht

end Machine.Grown

/-- The name of the module that a function was declared in. -/
def Machine.homeOf (m : Machine) (id : FunctionId) : Option ModuleName :=
  (m.function? id).bind Function.home

namespace Alike

variable {R : Pairing} {m m' : Machine} (h : Alike R m m')
include h

theorem sight : m'.sight = m.sight := by
  rw [Machine.sight, Machine.sight, h.store.outcome?, h.env]

theorem present : m'.present = m.present := by
  funext module
  rw [Machine.present, Machine.present, h.held, h.modules]

theorem function? (id : FunctionId) :
    m'.function? id = (m.function? id).map (Function.relabel R.label) := by
  rw [Machine.function?, Machine.function?, h.functions, Array.getElem?_map]

/-- A function that has lost its module runs the code that it had before. -/
theorem current? (id : FunctionId) :
    m'.current? id = (m.current? id).map (Function.relabelAs R.label (m.homeOf id)) := by
  rw [Machine.current?, Machine.current?, h.function?, h.present, Machine.homeOf]
  cases m.function? id <;> rfl

/-- A function runs as code of the module that it was declared in. -/
theorem runsAs {id : FunctionId} {f : Function} (hf : m.current? id = some f) :
    R.RunsAs (m.homeOf id) f.home := by
  obtain ⟨g, hg, rfl⟩ := Option.map_eq_some_iff.1 hf
  rw [Machine.homeOf, hg]
  change R.RunsAs (g.module.map (·.name)) ((g.module.filter m.present).map (·.name))
  cases g.module with
  | none => exact .refl none
  | some module =>
    rw [Option.filter_some]
    split
    · exact .refl _
    · rename_i habsent
      refine .inr ⟨rfl, fun name hname hkept => habsent ?_⟩
      cases hname
      rw [Machine.present, h.keeps module hkept, Bool.true_or]

theorem directory : m'.directory = m.directory.relabel R.label m.homeOf := by
  have hfunction : m'.current? = fun id =>
      (m.current? id).map (Function.relabelAs R.label (m.homeOf id)) := funext h.current?
  rw [Machine.directory, hfunction, h.store.outcome?, h.store.size]
  rfl

theorem quoted? : m'.directory.quoted? = m.directory.quoted? := by
  rw [h.directory, Directory.quoted?_relabel]

theorem triple? : m'.directory.triple? = m.directory.triple? := by
  rw [h.directory, Directory.triple?_relabel]

theorem labels : m'.directory.labels = m.directory.labels := by
  rw [h.directory, Directory.labels_relabel]

theorem snapshot : m'.directory.snapshot = m.directory.snapshot := by
  rw [h.directory, Directory.snapshot_relabel]

theorem report : m'.directory.report = m.directory.report := by
  rw [h.directory, Directory.report_relabel]

/-! ## Changes on both sides -/

theorem withEnv (env : Environment) : Alike R (m.withEnv env) (m'.withEnv env) :=
  { h with env := rfl }

theorem withStore {s s' : Store Handler} (hs : s.Fenced R.fence) (hrel : s.Rel R.Rewrites s') :
    Alike R (m.withStore s) (m'.withStore s') :=
  { h with fenced := hs, store := hrel }

theorem withQueue (queue : List Task) : Alike R (m.withQueue queue) (m'.withQueue queue) :=
  { h with queue := rfl }

theorem withFunction (f : Function) :
    Alike R (m.withFunction f) (m'.withFunction (f.relabel R.label)) := by
  refine { h with functions := ?_ }
  change m'.rest.functions.push _ = (m.rest.functions.push f).map _
  rw [h.functions, Array.map_push]

theorem withModules (modules : Registry) :
    Alike R { m with rest := { m.rest with modules } } { m' with rest := { m'.rest with modules } } :=
  { h with modules := rfl }

theorem withInterrupted (flag : Bool) :
    Alike R { m with rest := { m.rest with interrupted := flag } }
      { m' with rest := { m'.rest with interrupted := flag } } :=
  { h with interrupted := rfl }

theorem withLog {log log' : List LogEntry}
    (hlog : ∃ entries, log = entries ++ R.logs.1 ∧ log' = entries ++ R.logs.2) :
    Alike R (m.withLog log) (m'.withLog log') :=
  { h with logged := hlog }

theorem addLog (entries : List LogEntry) :
    Alike R (m.withLog (entries ++ m.rest.log)) (m'.withLog (entries ++ m'.rest.log)) := by
  obtain ⟨before, hm, hm'⟩ := h.logged
  refine h.withLog ⟨entries ++ before, ?_, ?_⟩
  · rw [hm, List.append_assoc]
  · rw [hm', List.append_assoc]

end Alike

namespace After

variable {R : Pairing} {m m₁ m₁' m₂ m₂' : Machine}

theorem refl (h : Alike R m m₁) : After R m m m₁ := ⟨h, .refl m, rfl⟩

theorem trans (h : After R m m₁ m₁') (h' : After R m₁ m₂ m₂') : After R m m₂ m₂' :=
  ⟨h'.alike, h.grown.trans h'.grown, h'.module.trans h.module⟩

/-- A change that leaves the store, the queue and the module alone. -/
theorem of_alike (h : Alike R m₁ m₁') (hs : m₁.store = m.store) (hq : m₁.rest.queue = m.rest.queue)
    (hmodule : m₁.rest.env.module = m.rest.env.module) : After R m m₁ m₁' :=
  ⟨h, .of_store (hs ▸ .refl _) hq, hmodule⟩

theorem withStore (h : Alike R m m₁') {s s' : Store Handler} (hs : s.Fenced R.fence)
    (hrel : s.Rel R.Rewrites s') (hg : m.store.Grown R.fence s) :
    After R m (m.withStore s) (m₁'.withStore s') :=
  ⟨h.withStore hs hrel, .of_store hg rfl, rfl⟩

end After

namespace Agree

variable {α β : Type} {P Q : Machine → Machine → Prop} {m m' : Machine}
  {r r' : EStateM.Result Abort Machine α}

theorem mono (h : Agree P r r') (hPQ : ∀ m m', P m m' → Q m m') : Agree Q r r' := by
  cases h with
  | ok a h => exact .ok a (hPQ _ _ h)
  | error e h => exact .error e (hPQ _ _ h)

/-- Goes on from where two runs have come. -/
theorem trans {R : Pairing} {m₁ m₁' : Machine} (h : After R m m₁ m₁')
    (hr : Agree (After R m₁) r r') : Agree (After R m) r r' :=
  hr.mono fun _ _ => h.trans

theorem bind {x y : EvalM α} {f g : α → EvalM β} (hx : Agree P (x m) (y m'))
    (herror : ∀ m₁ m₁', P m₁ m₁' → Q m₁ m₁')
    (hf : ∀ a m₁ m₁', P m₁ m₁' → Agree Q (f a m₁) (g a m₁')) :
    Agree Q ((x >>= f) m) ((y >>= g) m') := by
  change Agree Q (EStateM.bind x f m) (EStateM.bind y g m')
  unfold EStateM.bind
  generalize x m = r, y m' = r' at hx
  cases hx with
  | ok a h => exact hf a _ _ h
  | error e h => exact .error e (herror _ _ h)

theorem ensuring {x y : EvalM α} {after after' : Machine → Machine} (hx : Agree P (x m) (y m'))
    (hafter : ∀ m₁ m₁', P m₁ m₁' → Q (after m₁) (after' m₁')) :
    Agree Q (EvalM.ensuring x after m) (EvalM.ensuring y after' m') := by
  unfold EvalM.ensuring
  generalize x m = r, y m' = r' at hx
  cases hx with
  | ok a h => exact .ok a (hafter _ _ h)
  | error e h => exact .error e (hafter _ _ h)

end Agree

/-! ## Computations -/

namespace Parallel

variable {R : Pairing} {owner : Option ModuleName} {α β : Type} {x y : EvalM α}

theorem pure (a : α) : Parallel R owner (Pure.pure a : EvalM α) (Pure.pure a) :=
  fun _ _ h _ => .ok a (.refl h)

theorem fail (e : Error) : Parallel R owner (EvalM.fail e : EvalM α) (EvalM.fail e) :=
  fun _ _ h _ => .error _ (.refl h)

theorem throw (e : Abort) : Parallel R owner (throw e : EvalM α) (throw e) :=
  fun _ _ h _ => .error e (.refl h)

theorem bind {f g : α → EvalM β} (hx : Parallel R owner x y)
    (hf : ∀ a, Parallel R owner (f a) (g a)) : Parallel R owner (x >>= f) (y >>= g) :=
  fun m m' h howner => (hx m m' h howner).bind (fun _ _ hr => hr) fun a m₁ m₁' h₁ =>
    .trans h₁ (hf a m₁ m₁' h₁.alike (h₁.module ▸ howner))

theorem ofExcept (r : Except Error α) : Parallel R owner (EvalM.ofExcept r) (EvalM.ofExcept r) := by
  cases r with
  | ok a => exact pure a
  | error e => exact fail e

/-- Both look at something that is the same. -/
theorem gets {f g : Machine → α} (hfg : ∀ m m', Alike R m m' → g m' = f m) :
    Parallel R owner (EvalM.gets f) (EvalM.gets g) := by
  intro m m' h _
  change Agree _ (.ok (f m) m) (.ok (g m') m')
  rw [hfg m m' h]
  exact .ok _ (.refl h)

/-- Goes on with an environment that the code of the owner can run in. -/
theorem environment {f g : Environment → EvalM β}
    (hf : ∀ env : Environment, R.RunsAs owner env.module → Parallel R owner (f env) (g env)) :
    Parallel R owner (EvalM.environment >>= f) (EvalM.environment >>= g) := by
  intro m m' h howner
  have hx : (EvalM.environment >>= f) m = f m.rest.env m := rfl
  have hy : (EvalM.environment >>= g) m' = g m.rest.env m' := by
    rw [← h.env]
    rfl
  rw [hx, hy]
  exact hf m.rest.env howner m m' h howner

/-- Both are put into the same text. -/
theorem written {f g : Machine → Option α} (hfg : ∀ m m', Alike R m m' → g m' = f m) :
    Parallel R owner (EvalM.written f) (EvalM.written g) := by
  intro m m' h _
  unfold EvalM.written
  rw [hfg m m' h]
  split
  · exact .ok _ (.refl h)
  · exact .error _ (.refl h)

theorem quoted (v : Value) : Parallel R owner (EvalM.quoted v) (EvalM.quoted v) :=
  written fun _ _ h => by rw [h.quoted?]

theorem noMatch (v : Value) : Parallel R owner (EvalM.noMatch v : EvalM α) (EvalM.noMatch v) :=
  bind (quoted v) fun _ => fail _

theorem outcome (hx : Parallel R owner x y) :
    Parallel R owner (EvalM.outcome x) (EvalM.outcome y) := by
  intro m m' h howner
  have hr := hx m m' h howner
  unfold EvalM.outcome
  generalize x m = r, y m' = r' at hr
  cases hr with
  | ok a h => exact .ok _ h
  | error e h =>
    cases e with
    | error e => exact .ok _ h
    | panic payload => exact .error _ h
    | outOfFuel => exact .error _ h

theorem contained (hx : Parallel R owner x y) :
    Parallel R owner (EvalM.contained x) (EvalM.contained y) := by
  intro m m' h howner
  have hr := hx m m' h howner
  unfold EvalM.contained
  generalize x m = r, y m' = r' at hr
  cases hr with
  | ok a h => exact .ok _ h
  | error e h =>
    cases e with
    | error e => exact .ok _ h
    | panic payload => exact .ok _ h
    | outOfFuel => exact .error _ h

theorem traced (stack : StackTrace) (hx : Parallel R owner x y) :
    Parallel R owner (EvalM.traced stack x) (EvalM.traced stack y) := by
  intro m m' h howner
  have hr := hx m m' h howner
  unfold EvalM.traced
  generalize x m = r, y m' = r' at hr
  cases hr with
  | ok a h => exact .ok _ h
  | error e h => cases e <;> exact .error _ h

/-- Whatever the owner of the code that is run in another environment. -/
theorem within {inner : Option ModuleName} {env : Environment} (hinner : R.RunsAs inner env.module)
    (hx : Parallel R inner x y) : Parallel R owner (EvalM.within env x) (EvalM.within env y) := by
  intro m m' h _
  have hm : EvalM.within env x m =
      EvalM.ensuring x (fun m₁ => m₁.withEnv m.rest.env) (m.withEnv env) := rfl
  have hm' : EvalM.within env y m' =
      EvalM.ensuring y (fun m₁ => m₁.withEnv m.rest.env) (m'.withEnv env) := by
    rw [← h.env]
    rfl
  rw [hm, hm']
  refine (hx (m.withEnv env) (m'.withEnv env) (h.withEnv env) hinner).ensuring fun m₁ m₁' h₁ => ?_
  exact ⟨h₁.alike.withEnv _, ⟨h₁.grown.store, h₁.grown.queue⟩, rfl⟩

theorem modifyEnvironment {f : Environment → Environment}
    (hf : ∀ env : Environment, (f env).module = env.module) :
    Parallel R owner (EvalM.modifyEnvironment f) (EvalM.modifyEnvironment f) := by
  intro m m' h _
  have hm' : EvalM.modifyEnvironment f m' = .ok () (m'.withEnv (f m.rest.env)) := by
    rw [← h.env]
    rfl
  rw [hm']
  exact .ok () (.of_alike (h.withEnv _) rfl rfl (hf m.rest.env))

end Parallel

theorem Environment.module_defineAll (env : Environment) (bindings : List (String × Value)) :
    (env.defineAll bindings).module = env.module := by
  rw [env.defineAll_eq_grow]
  rfl

theorem Environment.module_closeFrame (env : Environment) : env.closeFrame.module = env.module := by
  unfold closeFrame
  split <;> rfl

namespace Parallel

variable {R : Pairing} {owner : Option ModuleName} {α : Type} {x y : EvalM α}

theorem define (bindings : List (String × Value)) :
    Parallel R owner (EvalM.modifyEnvironment (·.defineAll bindings))
      (EvalM.modifyEnvironment (·.defineAll bindings)) :=
  modifyEnvironment fun env => env.module_defineAll bindings

theorem inFrame (hx : Parallel R owner x y) :
    Parallel R owner (EvalM.inFrame x) (EvalM.inFrame y) := by
  refine bind (modifyEnvironment fun _ => rfl) fun _ m m' h howner => ?_
  refine (hx m m' h howner).ensuring fun m₁ m₁' h₁ => ?_
  have hclose : m₁'.rest.env.closeFrame = m₁.rest.env.closeFrame := by rw [h₁.alike.env]
  refine ⟨?_, ⟨h₁.grown.store, h₁.grown.queue⟩, ?_⟩
  · change Alike R (m₁.withEnv m₁.rest.env.closeFrame) (m₁'.withEnv m₁'.rest.env.closeFrame)
    rw [hclose]
    exact h₁.alike.withEnv _
  · exact (Environment.module_closeFrame _).trans h₁.module

theorem addFunction (f : Function) :
    Parallel R owner (EvalM.addFunction f) (EvalM.addFunction (f.relabel R.label)) := by
  intro m m' h _
  have hsize : m'.rest.functions.size = m.rest.functions.size := by rw [h.functions, Array.size_map]
  change Agree _ (.ok (FunctionId.mk m.rest.functions.size) (m.withFunction f))
    (.ok (FunctionId.mk m'.rest.functions.size) (m'.withFunction (f.relabel R.label)))
  rw [hsize]
  exact .ok _ (.of_alike (h.withFunction f) rfl rfl rfl)

theorem log (entry : LogEntry) : Parallel R owner (EvalM.log entry) (EvalM.log entry) :=
  fun _ _ h _ => .ok () (.of_alike (h.addLog [entry]) rfl rfl rfl)

theorem logValues (values : List Value) :
    Parallel R owner (EvalM.logValues values) (EvalM.logValues values) := by
  intro m m' h _
  let entries := (values.map fun v => LogEntry.value (m.directory.snapshot v)).reverse
  have hm' : EvalM.logValues values m' = .ok () (m'.withLog (entries ++ m'.rest.log)) := by
    simp only [EvalM.logValues, h.snapshot]
    rfl
  rw [hm']
  exact .ok () (.of_alike (h.addLog entries) rfl rfl rfl)

theorem interrupt :
    Parallel R owner (EvalM.modifyRest ({ · with interrupted := true }))
      (EvalM.modifyRest ({ · with interrupted := true })) :=
  fun _ _ h _ => .ok () (.of_alike (h.withInterrupted true) rfl rfl rfl)

end Parallel

/-! ## Promises -/

namespace Promise

variable {α : Type} (d : Continuation Handler → Outcome → EvalM Unit) (m : Machine)

theorem settle_apply (p : PromiseId) (o : Outcome) :
    settle d p o m = deliverAll d (m.store.settle p o).1 o (m.withStore (m.store.settle p o).2) := rfl

theorem onComplete_apply (p : PromiseId) (k : Continuation Handler) :
    onComplete d p k m = (match (m.store.register p k).1 with
      | some o => d k o
      | none => pure ()) (m.withStore (m.store.register p k).2) := rfl

theorem new_bind (f : PromiseId → EvalM α) :
    (new >>= f) m = f m.store.fresh.1 (m.withStore m.store.fresh.2) := rfl

end Promise

section

variable {R : Pairing} {d d' : Continuation Handler → Outcome → EvalM Unit}
  {m m' : Machine} {p : PromiseId}

/-- A new promise on both sides. -/
theorem Alike.after_fresh (h : Alike R m m') :
    m'.store.fresh.1 = m.store.fresh.1 ∧
      After R m (m.withStore m.store.fresh.2) (m'.withStore m'.store.fresh.2) :=
  ⟨h.store.fresh.1, .withStore h h.fenced.fresh h.store.fresh.2 (.fresh _ _)⟩

namespace InStep

variable (hd : InStep R d d')
include hd

theorem deliverAll (o : Outcome) {ks ks' : List (Continuation Handler)} (m m' : Machine)
    (hrel : List.Forall₂ (Continuation.Rel R.Rewrites) ks ks') (h : Alike R m m')
    (hks : ∀ k ∈ ks, m.store.Admits R.fence k) :
    Agree (After R m) (Promise.deliverAll d ks o m) (Promise.deliverAll d' ks' o m') := by
  induction hrel generalizing m m' with
  | nil => exact .ok () (.refl h)
  | @cons k k' ks ks' hk _ ih =>
    refine (hd k k' o m m' hk h (hks k (.head _))).bind (fun _ _ hr => hr) fun _ m₁ m₁' h₁ => ?_
    exact .trans h₁ (ih m₁ m₁' h₁.alike fun l hl => h₁.grown.store.admits (hks l (.tail _ hl)))

theorem settle (h : Alike R m m') (hp : m.store.Owns R.fence p) (o : Outcome) :
    Agree (After R m) (Promise.settle d p o m) (Promise.settle d' p o m') := by
  rw [Promise.settle_apply, Promise.settle_apply]
  obtain ⟨hks, hstore⟩ := h.store.settle p o
  have hstep : After R m (m.withStore (m.store.settle p o).2)
      (m'.withStore (m'.store.settle p o).2) :=
    .withStore h (h.fenced.settle p o) hstore (.settle hp o)
  refine .trans hstep (hd.deliverAll o _ _ hks hstep.alike fun k hk => ?_)
  exact hstep.grown.store.admits (h.fenced.admits_of_settle hp hk)

theorem onComplete (h : Alike R m m') {k k' : Continuation Handler}
    (hrel : Continuation.Rel R.Rewrites k k') (hk : m.store.Admits R.fence k) :
    Agree (After R m) (Promise.onComplete d p k m) (Promise.onComplete d' p k' m') := by
  obtain ⟨hanswer, hstore⟩ := h.store.register p hrel
  rw [Promise.onComplete_apply, Promise.onComplete_apply, hanswer]
  have hstep : After R m (m.withStore (m.store.register p k).2)
      (m'.withStore (m'.store.register p k').2) :=
    .withStore h (h.fenced.register p hk) hstore (.register p hk)
  cases (m.store.register p k).1 with
  | none => exact .ok () hstep
  | some o => exact .trans hstep (hd k k' o _ _ hrel hstep.alike (hstep.grown.store.admits hk))

theorem fulfil (h : Alike R m m') (hp : m.store.Owns R.fence p) (o : Outcome) :
    Agree (After R m) (Promise.fulfil d p o m) (Promise.fulfil d' p o m') := by
  rcases concrete_or_promise o with ho | ⟨q, rfl⟩
  · rw [Promise.fulfil_concrete d ho, Promise.fulfil_concrete d' ho]
    exact hd.settle h hp o
  · by_cases hq : q = p
    · subst hq
      rw [Promise.fulfil_self, Promise.fulfil_self]
      exact hd.settle h hp _
    · rw [Promise.fulfil_other d hq, Promise.fulfil_other d' hq]
      exact hd.onComplete h (.adopt p) hp

end InStep

namespace Parallel

variable {owner : Option ModuleName} {α : Type}

/-- Goes on with a new promise. -/
theorem new {f g : PromiseId → EvalM α}
    (hf : ∀ (p : PromiseId) (m m' : Machine), Alike R m m' → R.RunsAs owner m.rest.env.module →
      m.store.Owns R.fence p → Agree (After R m) (f p m) (g p m')) :
    Parallel R owner (Promise.new >>= f) (Promise.new >>= g) := by
  intro m m' h howner
  obtain ⟨hid, hstep⟩ := h.after_fresh
  rw [Promise.new_bind, Promise.new_bind, hid]
  exact .trans hstep (hf _ _ _ hstep.alike howner h.fenced.owns_fresh)

variable (hd : InStep R d d')
include hd

theorem settled (o : Outcome) : Parallel R owner (Promise.settled d o) (Promise.settled d' o) :=
  new fun p _ _ h _ hp =>
    (hd.fulfil h hp o).bind (fun _ _ hr => hr) fun _ _ _ h₁ => .ok p h₁

theorem derive (p : PromiseId) {handler handler' : Handler} (hrel : R.Rewrites handler handler') :
    Parallel R owner (Promise.derive d p handler) (Promise.derive d' p handler') :=
  new fun q _ _ h _ hq =>
    (hd.onComplete h (.derive q hrel) hq).bind (fun _ _ hr => hr) fun _ _ _ h₁ => .ok q h₁

theorem watch (id : GatherId) (awaited : List (Nat × PromiseId)) (m m' : Machine) (h : Alike R m m')
    (hid : ∀ place, m.store.Admits R.fence (.gather id place)) :
    Agree (After R m) (Promise.watch d id awaited m) (Promise.watch d' id awaited m') := by
  induction awaited generalizing m m' with
  | nil => exact .ok () (.refl h)
  | cons x rest ih =>
    obtain ⟨i, p⟩ := x
    refine (hd.onComplete h (.gather id i) (hid i)).bind (fun _ _ hr => hr) fun _ m₁ m₁' h₁ => ?_
    exact .trans h₁ (ih m₁ m₁' h₁.alike fun place => h₁.grown.store.admits (hid place))

theorem all (operands : List Value) :
    Parallel R owner (Promise.all d operands) (Promise.all d' operands) := by
  unfold Promise.all
  cases Promise.places 0 operands with
  | nil => exact settled hd _
  | cons a rest =>
    refine new fun result m m' h _ hresult => ?_
    let g : Gather := ⟨operands, (a :: rest).length, false, result⟩
    obtain ⟨hid, hstore⟩ := h.store.addGather g
    have hstep : After R m (m.withStore (m.store.addGather g).2)
        (m'.withStore (m'.store.addGather g).2) :=
      .withStore h (h.fenced.addGather hresult) hstore (.addGather h.fenced g)
    refine .trans hstep ?_
    have hwatch := watch hd (m.store.addGather g).1 (a :: rest) _ _ hstep.alike
      fun place => h.fenced.admits_addGather g place
    change Agree _ ((Promise.watch d (m.store.addGather g).1 (a :: rest) >>= fun _ =>
        Pure.pure result : EvalM PromiseId) (m.withStore (m.store.addGather g).2))
      ((Promise.watch d' (m'.store.addGather g).1 (a :: rest) >>= fun _ =>
        Pure.pure result : EvalM PromiseId) (m'.withStore (m'.store.addGather g).2))
    rw [hid]
    exact hwatch.bind (fun _ _ hr => hr) fun _ _ _ h₁ => .ok result h₁

end Parallel

/-- One level of running continuations, if the handlers are parallel. -/
theorem InStep.deliverStep (hd : InStep R d d') {handle handle' : Handler → Outcome → EvalM Outcome}
    (hh : ∀ {h h'} o owner, R.Rewrites h h' → Parallel R owner (handle h o) (handle' h' o)) :
    InStep R (Promise.deliverStep d handle) (Promise.deliverStep d' handle') := by
  intro k k' o m m' hrel h hk
  cases hrel with
  | adopt target => exact hd.fulfil h hk o
  | derive target hrel =>
    refine (hh o _ hrel m m' h (.refl _)).bind (fun _ _ hr => hr) fun answer m₁ m₁' h₁ => ?_
    exact .trans h₁ (hd.fulfil h₁.alike (h₁.grown.store.owns hk) answer)
  | gather id place =>
    obtain ⟨hanswer, hstore⟩ := h.store.record id place o
    have hstep : After R m (m.withStore (m.store.record id place o).2)
        (m'.withStore (m'.store.record id place o).2) :=
      .withStore h (h.fenced.record id place o) hstore (.record hk o)
    refine .trans hstep ?_
    cases hfound : (m.store.record id place o).1 with
    | none =>
      rw [Promise.deliverStep_gather_none d handle hfound,
        Promise.deliverStep_gather_none d' handle' (hanswer.trans hfound)]
      exact .ok () (.refl hstep.alike)
    | some found =>
      rw [Promise.deliverStep_gather_some d handle hfound,
        Promise.deliverStep_gather_some d' handle' (hanswer.trans hfound)]
      exact hd.fulfil hstep.alike (h.fenced.owns_of_record hk hfound) found.2
  | notify hrel =>
    exact (hh o _ hrel m m' h (.refl _)).bind (fun _ _ hr => hr) fun _ _ _ h₁ => .ok () h₁

end

end Deferral
