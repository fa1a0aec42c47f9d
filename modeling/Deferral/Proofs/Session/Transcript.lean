import Deferral.Proofs.Session.Beside

/-!
# What a host does and what it is shown

A host acts on a session by `Deed`s: it carries out commands, adds natives of its own, changes the
settings, and lets go of modules. `Session.transcript` is everything it is shown on the way: the
response to each command, with what has been written to the log meanwhile. It is a function of how
engines are made, so that one engine can be compared with another: if they go abreast, the transcripts
are the same (`transcript_relabel`).
-/

set_option autoImplicit false

namespace Deferral

/-- What a host can do with a session. -/
inductive Deed where
  | command (c : Command)
  /-- Add a native operation. -/
  | native (name : String) (operation : Native) (arity : Nat)
  /-- Change the settings, the operations of the host among them, and the fuel. -/
  | settings (context : Context) (fuel : Nat)
  /-- From now on these modules are held by something else than the registry. -/
  | holding (held : Module → Bool)

namespace Deed

/-- Relabels the code that a host hands over. -/
def relabel (label : Labelling) (owner : Option ModuleName) : Deed → Deed
  | .command c => .command (c.relabel label owner)
  | other => other

/-- Who owns the code of the host after a deed. -/
def ownerAfter (owner : Option ModuleName) : Deed → Option ModuleName
  | .command c => c.ownerAfter owner
  | _ => owner

/-- Relabels the code that a host hands over in the course of a session, which has the owner given at
first. -/
def relabelAll (label : Labelling) : Option ModuleName → List Deed → List Deed
  | _, [] => []
  | owner, d :: rest => d.relabel label owner :: relabelAll label (d.ownerAfter owner) rest

/-- If the host sets no module, its code never has an owner. -/
theorem relabelAll_none (label : Labelling) {deeds : List Deed}
    (h : ∀ name, .command (.setModule (some name)) ∉ deeds) :
    relabelAll label none deeds = deeds.map (Deed.relabel label none) := by
  induction deeds with
  | nil => rfl
  | cons d rest ih =>
    have howner : d.ownerAfter none = none := by
      cases d with
      | command c =>
        cases c with
        | setModule name =>
          cases name with
          | none => rfl
          | some name => exact absurd (.head _) (h name)
        | _ => rfl
      | _ => rfl
    rw [relabelAll, howner, ih fun name hmem => h name (.tail _ hmem), List.map_cons]

end Deed

/-! ## Natives -/

namespace Alike

variable {R : Pairing} {W : Rewriting} {m m' : Machine}

/-- There is no code in a native. -/
theorem native (h : Alike R m m') (name : String) (operation : Native) (arity : Nat) :
    Alike R (Session.defineNative m name operation arity)
      (Session.defineNative m' name operation arity) := by
  have hsize : m'.rest.functions.size = m.rest.functions.size := by rw [h.functions, Array.size_map]
  have hnew : Session.defineNative m' name operation arity =
      (m'.withFunction ((Function.ofNative name operation arity).relabel R.label)).withEnv
        (m.rest.env.defineBuiltin name (.function ⟨m.rest.functions.size⟩)) := by
    rw [← h.env, ← hsize]
    rfl
  rw [hnew]
  exact (h.withFunction _).withEnv _

theorem natives {ι : Type} (natives : List ι) (name : ι → String) (operation : ι → Native)
    (arity : ι → Nat) (h : Alike R m m') :
    Alike R
      (natives.foldl (fun m i => Session.defineNative m (name i) (operation i) (arity i)) m)
      (natives.foldl (fun m i => Session.defineNative m (name i) (operation i) (arity i)) m') := by
  induction natives generalizing m m' with
  | nil => exact h
  | cons i rest ih => exact ih (h.native _ _ _)

theorem empty (W : Rewriting) : Alike (.whole W) .empty .empty where
  fenced := Store.fenced_fence .empty
  store := ⟨rfl, fun _ => .pending .nil, rfl⟩
  env := rfl
  functions := Array.map_empty.symm
  modules := rfl
  held := rfl
  interrupted := rfl
  queue := rfl
  logged := ⟨[], rfl, rfl⟩
  keeps _ _ := rfl

end Alike

namespace Session

/-- What a host is shown, if engines are made by `make`. -/
def transcript (make : Context → Nat → Engine) : Session → List Deed → List (Response × List LogEntry)
  | _, [] => []
  | s, .command c :: rest =>
    let (s, response) := s.runWith (make s.context s.fuel) c
    let (log, s) := s.takeLog
    (response, log) :: transcript make s rest
  | s, .native name operation arity :: rest =>
    transcript make { s with machine := defineNative s.machine name operation arity } rest
  | s, .settings context fuel :: rest => transcript make { s with context, fuel } rest
  | s, .holding held :: rest => transcript make (s.holding held) rest

variable {W : Rewriting} {owner : Option ModuleName} {s s' : Session}

namespace Beside

variable (h : Beside W owner s s')
include h

theorem takeLog : s'.takeLog.1 = s.takeLog.1 ∧ Beside W owner s.takeLog.2 s'.takeLog.2 := by
  obtain ⟨entries, hlog, hlog'⟩ := h.alike.logged
  refine ⟨?_, h.context, h.fuel, h.promises, h.saved, h.alike.withLog ⟨[], rfl, rfl⟩, h.module,
    h.known, h.queued⟩
  simp only [Session.takeLog, hlog, hlog']
  rfl

theorem settings (context : Context) (fuel : Nat) :
    Beside W owner { s with context, fuel } { s' with context, fuel } :=
  ⟨rfl, rfl, h.promises, h.saved, h.alike, h.module, h.known, h.queued⟩

/-- Both may lose a module that need not be kept. -/
theorem holding {held : Module → Bool}
    (hheld : ∀ module : Module, W.kept module.name → held module = true) :
    Beside W owner (s.holding held) (s'.holding held) :=
  ⟨h.context, h.fuel, h.promises, h.saved, { h.alike with held := rfl, keeps := hheld }, h.module,
    h.known, h.queued⟩

theorem native (name : String) (operation : Native) (arity : Nat) :
    Beside W owner { s with machine := defineNative s.machine name operation arity }
      { s' with machine := defineNative s'.machine name operation arity } :=
  ⟨h.context, h.fuel, h.promises, h.saved, h.alike.native name operation arity, h.module, h.known,
    h.queued⟩

end Beside

theorem beside_start (W : Rewriting) (executor : Executor) (maxCallDepth : Nat)
    (withPrelude withHost : Bool) :
    Beside W none (start executor maxCallDepth withPrelude withHost)
      (start executor maxCallDepth withPrelude withHost) := by
  have halike : Alike (.whole W) (start executor maxCallDepth withPrelude withHost).machine
      (start executor maxCallDepth withPrelude withHost).machine := by
    have hprelude : Alike (.whole W) (loadPrelude .empty) (loadPrelude .empty) :=
      (Alike.empty W).natives prelude (·.1) (·.2.1) (·.2.2)
    have hhost : ∀ m, Alike (.whole W) m m → Alike (.whole W) (loadHost m) (loadHost m) :=
      fun m hm => hm.natives hostNatives (·.1) (fun n => .host n.1) (·.2)
    cases withPrelude <;> cases withHost
    · exact .empty W
    · exact hhost _ (.empty W)
    · exact hprelude
    · exact hhost _ hprelude
  refine ⟨rfl, rfl, rfl, rfl, halike, ?_, fun _ he => absurd he List.not_mem_nil, ?_⟩
  · cases withPrelude <;> cases withHost <;> rfl
  · cases withPrelude <;> cases withHost <;> exact fun _ ht => absurd ht List.not_mem_nil

/-! ## Whole runs -/

/-- Hosts that do the same are shown the same, if the engines go abreast. -/
theorem transcript_relabel {make make' : Context → Nat → Engine}
    (hmake : ∀ context fuel, Abreast (.whole W) (make context fuel) (make' context fuel))
    (hconduct : ∀ context fuel, Conducted (make context fuel)) (deeds : List Deed)
    (hkept : ∀ held, .holding held ∈ deeds → ∀ module : Module, W.kept module.name →
      held module = true) :
    ∀ {owner : Option ModuleName} {s s' : Session}, Beside W owner s s' →
      transcript make' s' (Deed.relabelAll W.label owner deeds) = transcript make s deeds := by
  induction deeds with
  | nil => exact fun _ => rfl
  | cons deed rest ih =>
    intro owner s s' h
    have ih := @ih fun held hmem => hkept held (.tail _ hmem)
    cases deed with
    | command c =>
      obtain ⟨hbeside, hresponse⟩ := h.runWith (hmake s.context s.fuel) (hconduct _ _) c
      obtain ⟨hlog, hafter⟩ := hbeside.takeLog
      simp only [Deed.relabelAll, Deed.relabel, Deed.ownerAfter, transcript, h.context, h.fuel,
        hresponse, hlog, ih hafter]
    | native name operation arity => exact ih (h.native name operation arity)
    | settings context fuel => exact ih (h.settings context fuel)
    | holding held => exact ih (h.holding (hkept held (.head _)))

/-- A session that a host can have in its hands goes beside itself. -/
theorem Reachable.beside (h : s.Reachable) : ∃ owner, Beside .plain owner s s := by
  induction h with
  | start executor maxCallDepth withPrelude withHost =>
    exact ⟨none, beside_start _ executor maxCallDepth withPrelude withHost⟩
  | settings _ context fuel ih =>
    obtain ⟨owner, h⟩ := ih
    exact ⟨owner, h.settings context fuel⟩
  | native _ name operation arity ih =>
    obtain ⟨owner, h⟩ := ih
    exact ⟨owner, h.native name operation arity⟩
  | @run s _ c ih =>
    obtain ⟨owner, h⟩ := ih
    have hrun := h.runWith (abreast_engine _ rfl s.context s.fuel) (conducted_engine _ _) c
    rw [Rewriting.plain, c.relabel_plain] at hrun
    exact ⟨_, hrun.sessions⟩
  | takeLog _ ih =>
    obtain ⟨owner, h⟩ := ih
    exact ⟨owner, h.takeLog.2⟩
  | holding _ held ih =>
    obtain ⟨owner, h⟩ := ih
    exact ⟨owner, h.holding fun _ => False.elim⟩

/-- What waits in the store of a session is for a promise that has been made. -/
theorem Reachable.fenced (h : s.Reachable) : s.machine.store.Fenced ⟨0, 0⟩ := by
  obtain ⟨_, hbeside⟩ := h.beside
  exact hbeside.alike.fenced

/-- The tasks that wait are for promises that have been made. -/
theorem Reachable.queued (h : s.Reachable) :
    ∀ t ∈ s.machine.rest.queue, s.machine.store.Has t.target := by
  obtain ⟨_, hbeside⟩ := h.beside
  exact hbeside.queued

end Session

end Deferral
