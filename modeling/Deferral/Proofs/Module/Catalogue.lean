import Deferral.Proofs.Module.Structure
import Deferral.Proofs.Session.Invariants

/-!
# The modules that are registered

Declaring a module and building one for a host are one procedure with two ways of making the module
(`defineModule`), and it either fails and leaves the machine as it is, or registers what it has made. So
every module that is registered, in any session that a host can reach, is structured, and the functions
that it gives to names are there under these names (`Machine.Catalogued`).
-/

set_option autoImplicit false

namespace Deferral

namespace Machine

/-- The function of an entry is there, under the name of the entry. -/
def Provides (m : Machine) (f : String × FunctionId) : Prop :=
  ∃ g, m.function? f.2 = some g ∧ g.name = f.1

/-- The modules that are registered are as they were made, and their functions are there. -/
def Catalogued (m : Machine) : Prop :=
  ∀ module ∈ m.rest.modules, module.Structured ∧ ∀ f ∈ module.functions, m.Provides f

variable {m m' : Machine} {f : String × FunctionId}

theorem Provides.withFunction (h : m.Provides f) (g : Function) : (m.withFunction g).Provides f := by
  obtain ⟨found, hfound, hname⟩ := h
  refine ⟨found, ?_, hname⟩
  obtain ⟨hlt, hget⟩ := Array.getElem?_eq_some_iff.1 hfound
  exact (Array.getElem?_push_lt hlt).trans (congrArg some hget)

theorem provides_withFunction (m : Machine) (g : Function) :
    (m.withFunction g).Provides (g.name, ⟨m.rest.functions.size⟩) :=
  ⟨g, Array.getElem?_push_size, rfl⟩

end Machine

/-! ## Making a module -/

/-- What declaring a module and building one have in common. -/
def defineModule (make : List (String × FunctionId) → Except Error Module)
    (link : Module → Option Module) (ds : List FunctionDecl) : EvalM Value := do
  let start ← EvalM.gets (·.rest.functions.size)
  let m ← EvalM.ofExcept (make (numbered start ds))
  let env ← EvalM.environment
  addFunctions env.bindings (link m) ds
  registerModule m
  return .module m

theorem evalModuleDecl_eq (name : ModuleName) (exports : List String) (ds : List FunctionDecl) :
    evalModuleDecl name exports ds = defineModule (Module.declare name exports) some ds := rfl

theorem evalModuleBuild_eq (name : ModuleName) (exports : List String) (ds : List FunctionDecl) :
    evalModuleBuild name exports ds = defineModule (Module.build name exports) (fun _ => none) ds := rfl

/-- The functions of declarations are made one after the other, and are then there. -/
theorem addFunctions_provides (captures : List Binding) (module : Option Module)
    (ds : List FunctionDecl) (m : Machine) :
    ∃ m', addFunctions captures module ds m = .ok () m' ∧ m'.rest.modules = m.rest.modules ∧
      (∀ f, m.Provides f → m'.Provides f) ∧
      ∀ f ∈ numbered m.rest.functions.size ds, m'.Provides f := by
  induction ds generalizing m with
  | nil => exact ⟨m, rfl, rfl, fun _ hf => hf, fun _ hf => absurd hf List.not_mem_nil⟩
  | cons d rest ih =>
    obtain ⟨m', hrun, hmodules, hkept, hmade⟩ :=
      ih (m.withFunction ⟨d.name, .code d.params d.body, captures, module⟩)
    refine ⟨m', hrun, hmodules, fun f hf => hkept f (hf.withFunction _), fun f hf => ?_⟩
    rcases List.mem_cons.1 hf with rfl | hrest
    · exact hkept _ (m.provides_withFunction _)
    · refine hmade f ?_
      rwa [show (m.withFunction ⟨d.name, .code d.params d.body, captures, module⟩).rest.functions.size =
        m.rest.functions.size + 1 from Array.size_push _]

section

variable {make : List (String × FunctionId) → Except Error Module} {link : Module → Option Module}
  {ds : List FunctionDecl} {m m' : Machine} {e : Error} {module : Module}

/-- The machine with a module registered. -/
def Machine.withModule (m : Machine) (module : Module) : Machine :=
  { m with rest := { m.rest with modules := Registry.register m.rest.modules module } }

theorem defineModule_of_error (h : make (numbered m.rest.functions.size ds) = .error e) :
    defineModule make link ds m = .error (.error e) m := by
  have hstart : EvalM.gets (·.rest.functions.size) m = .ok m.rest.functions.size m := rfl
  have hmake : EvalM.ofExcept (make (numbered m.rest.functions.size ds)) m = .error (.error e) m := by
    rw [h]
    rfl
  exact (EvalM.bind_of_ok hstart).trans (EvalM.bind_of_error hmake)

/-- A module that is made is registered, after its functions. -/
theorem defineModule_of_ok (h : make (numbered m.rest.functions.size ds) = .ok module) :
    ∃ m' : Machine, m'.rest.modules = m.rest.modules ∧ (∀ f, m.Provides f → m'.Provides f) ∧
      (∀ f ∈ numbered m.rest.functions.size ds, m'.Provides f) ∧
      defineModule make link ds m = .ok (.module module) (m'.withModule module) := by
  have hstart : EvalM.gets (·.rest.functions.size) m = .ok m.rest.functions.size m := rfl
  have hmake : EvalM.ofExcept (make (numbered m.rest.functions.size ds)) m = .ok module m := by
    rw [h]
    rfl
  have henv : EvalM.environment m = .ok m.rest.env m := rfl
  obtain ⟨m', hadd, hmodules, hkept, hmade⟩ :=
    addFunctions_provides m.rest.env.bindings (link module) ds m
  exact ⟨m', hmodules, hkept, hmade, (EvalM.bind_of_ok hstart).trans
    ((EvalM.bind_of_ok hmake).trans ((EvalM.bind_of_ok henv).trans (EvalM.bind_of_ok hadd)))⟩

/-- A module that cannot be made leaves no trace. -/
theorem defineModule_error {abort : Abort} (h : defineModule make link ds m = .error abort m') :
    m' = m := by
  cases hmake : make (numbered m.rest.functions.size ds) with
  | error e =>
    rw [defineModule_of_error hmake] at h
    cases h
    rfl
  | ok module =>
    obtain ⟨_, -, -, -, hrun⟩ := defineModule_of_ok hmake
    rw [hrun] at h
    cases h

end

/-! ## The registry -/

theorem Registry.mem_register {registry : Registry} {m n : Module}
    (h : n ∈ registry.register m) : n = m ∨ n ∈ registry := by
  induction registry with
  | nil => exact .inl (List.mem_singleton.1 h)
  | cons first rest ih =>
    unfold Registry.register at h
    split at h
    · exact (List.mem_cons.1 h).imp_right (List.mem_cons_of_mem _)
    · rcases List.mem_cons.1 h with rfl | hrest
      · exact .inr List.mem_cons_self
      · exact (ih hrest).imp_right (List.mem_cons_of_mem _)

/-- Whatever is registered, one after the other, nothing else comes to be there. -/
theorem Registry.mem_registerAll {registry : Registry} {n : Module} (modules : List Module)
    (h : n ∈ modules.foldl Registry.register registry) : n ∈ modules ∨ n ∈ registry := by
  induction modules generalizing registry with
  | nil => exact .inr h
  | cons m rest ih =>
    rcases ih h with hrest | hregistered
    · exact .inl (List.mem_cons_of_mem _ hrest)
    · rcases mem_register hregistered with rfl | hold
      · exact .inl List.mem_cons_self
      · exact .inr hold

namespace Machine

/-- A way of making modules that are structured, of functions that it is given. -/
def MakesStructured (make : List (String × FunctionId) → Except Error Module) : Prop :=
  ∀ functions m, make functions = .ok m → m.Structured ∧ ∀ f ∈ m.functions, f ∈ functions

theorem catalogued_defineModule {make : List (String × FunctionId) → Except Error Module}
    (hmake : MakesStructured make) (link : Module → Option Module) (ds : List FunctionDecl) :
    Keeps Catalogued (defineModule make link ds) := by
  intro m hm
  cases hmade : make (numbered m.rest.functions.size ds) with
  | error e =>
    rw [defineModule_of_error hmade]
    exact hm
  | ok made =>
    obtain ⟨m', hmodules, hkept, hprovided, hrun⟩ := defineModule_of_ok hmade
    obtain ⟨hstructured, hamong⟩ := hmake _ _ hmade
    rw [hrun]
    intro module hmem
    rcases Registry.mem_register hmem with rfl | hold
    · exact ⟨hstructured, fun f hf => hprovided f (hamong f hf)⟩
    · rw [hmodules] at hold
      exact ⟨(hm module hold).1, fun f hf => hkept f ((hm module hold).2 f hf)⟩

theorem definitional_catalogued : Definitional Catalogued where
  congr := fun hfunctions hmodules hm module hmem => by
    rw [hmodules] at hmem
    refine ⟨(hm module hmem).1, fun f hf => ?_⟩
    obtain ⟨g, hg, hname⟩ := (hm module hmem).2 f hf
    exact ⟨g, by rw [function?, hfunctions]; exact hg, hname⟩
  function := fun g hm module hmem =>
    ⟨(hm module hmem).1, fun f hf => ((hm module hmem).2 f hf).withFunction g⟩
  declared := fun name exports ds => by
    rw [evalModuleDecl_eq]
    exact catalogued_defineModule (fun _ _ => Module.declare_structured) some ds
  built := fun name exports ds => by
    rw [evalModuleBuild_eq]
    exact catalogued_defineModule (fun _ _ => Module.build_structured) (fun _ => none) ds

end Machine

/-- In every session that a host can reach, the modules are structured and their functions are there. -/
theorem Session.Reachable.catalogued {s : Session} (h : s.Reachable) : s.machine.Catalogued :=
  Machine.definitional_catalogued.reachable (fun _ hmem => absurd hmem List.not_mem_nil) h

/-- A declaration that is refused, or not come to, changes nothing. -/
theorem eval_moduleDecl_error {context : Context} {fuel : Nat} {name : ModuleName}
    {exports : List String} {ds : List FunctionDecl} {m m' : Machine} {abort : Abort}
    (h : (engine context fuel).eval (.moduleDecl name exports ds) m = .error abort m') : m' = m := by
  cases fuel with
  | zero =>
    cases h
    rfl
  | succ fuel =>
    rw [engine_succ] at h
    change (if m.rest.interrupted then EvalM.fail .interrupted
      else defineModule (Module.declare name exports) some ds) m = .error abort m' at h
    split at h
    · cases h
      rfl
    · exact defineModule_error h

/-- A module as a host or a declaration makes it. -/
def Module.Made (m : Module) : Prop := ∃ name exports functions,
  Module.build name exports functions = .ok m ∨ Module.declare name exports functions = .ok m

theorem Module.Made.structured {m : Module} (h : m.Made) : m.Structured := by
  obtain ⟨name, exports, functions, hbuild | hdeclare⟩ := h
  · exact (build_structured hbuild).1
  · exact (declare_structured hdeclare).1

/-- Modules are structured and give every name exactly one standing, however they are made and wherever
they are registered, and a registered module gives a name to a function of this name. A declaration is
refused, with a resolution error, exactly if an export is not declared or a name is declared twice, and
then nothing changes. -/
theorem modules_resolve_every_name :
    (∀ m : Module, m.Made → m.Structured ∧ ∀ name, ∃! standing, m.Stands name standing) ∧
    (∀ modules : List Module, (∀ m ∈ modules, m.Made) →
      ∀ m ∈ modules.foldl Registry.register [], m.Structured ∧
        ∀ name, ∃! standing, m.Stands name standing) ∧
    (∀ s : Session, s.Reachable → ∀ m ∈ s.machine.rest.modules,
      m.Structured ∧ (∀ name, ∃! standing, m.Stands name standing) ∧
        ∀ f ∈ m.functions, s.machine.Provides f) ∧
    (∀ name exports functions,
      ((∃ e, Module.declare name exports functions = .error e) ↔
        (∃ x ∈ exports, x ∉ Module.names functions) ∨ ¬ (Module.names functions).Nodup) ∧
      ∀ e, Module.declare name exports functions = .error e → ∃ fault, e = .resolution fault) ∧
    ∀ context fuel name exports ds m m' abort,
      (engine context fuel).eval (.moduleDecl name exports ds) m = .error abort m' → m' = m := by
  refine ⟨fun m hm => ⟨hm.structured, hm.structured.standing⟩, fun modules hmodules m hm => ?_,
    fun s hs m hm => ?_, fun name exports functions => ⟨Module.declare_fails_iff, fun e he => ?_⟩,
    fun _ _ _ _ _ _ _ _ h => eval_moduleDecl_error h⟩
  · have hmade := hmodules m ((Registry.mem_registerAll modules hm).resolve_right List.not_mem_nil)
    exact ⟨hmade.structured, hmade.structured.standing⟩
  · obtain ⟨hstructured, hprovided⟩ := hs.catalogued m hm
    exact ⟨hstructured, hstructured.standing, hprovided⟩
  · rcases Module.of_declare_error he with ⟨_, -, -, rfl⟩ | ⟨_, -, rfl⟩
    · exact ⟨_, rfl⟩
    · exact ⟨_, rfl⟩

/-- A host that declares a module with an exported function and a private one. -/
def ledgerSession : Session :=
  ((Session.start .immediate 100 false false).run
    (.eval (.moduleDecl ⟨["Ledger"]⟩ ["total"]
      [.mk "entry" [] (.literal (.int 1)), .mk "total" [] (.call (.identifier "entry") [] none)])
      none)).1

theorem modules_resolve_every_name_ledger :
    ledgerSession.Reachable ∧ ∃ m ∈ ledgerSession.machine.rest.modules, m.Structured ∧
      (∀ f ∈ m.functions, ledgerSession.machine.Provides f) ∧
      m.Stands "total" (.exported ⟨1⟩) ∧ m.Stands "entry" (.hidden ⟨0⟩) ∧ m.Stands "sum" .unknown := by
  have hreachable : ledgerSession.Reachable := .run (.start .immediate 100 false false) _
  have hmem : (⟨⟨["Ledger"]⟩, ["total"], [("entry", ⟨0⟩), ("total", ⟨1⟩)]⟩ : Module) ∈
      ledgerSession.machine.rest.modules := List.mem_singleton.2 rfl
  obtain ⟨hstructured, -, hprovided⟩ :=
    modules_resolve_every_name.2.2.1 ledgerSession hreachable _ hmem
  refine ⟨hreachable, _, hmem, hstructured, hprovided, ⟨?_, ?_, rfl, rfl⟩, ⟨?_, ?_, rfl, rfl, rfl⟩,
    ⟨?_, rfl, rfl⟩⟩ <;> simp [Module.names]

end Deferral
