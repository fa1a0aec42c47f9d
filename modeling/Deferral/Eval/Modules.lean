import Deferral.Eval.Machine

/-!
# Declaring and using modules

A declaration makes functions over everything in scope, links each to the module, and registers the
module under its name. A qualified name resolves to any function for code of the module itself, and to
an exported one for all other code.
-/

set_option autoImplicit false

namespace Deferral

/-- Names for functions that are about to be made, in order. -/
def numbered (start : Nat) : List FunctionDecl → List (String × FunctionId)
  | [] => []
  | d :: rest => (d.name, ⟨start⟩) :: numbered (start + 1) rest

/-- Makes the functions of declarations. -/
def addFunctions (captures : List Binding) (module : Option Module) :
    List FunctionDecl → EvalM Unit
  | [] => pure ()
  | d :: rest => do
    let _ ← EvalM.addFunction ⟨d.name, .code d.params d.body, captures, module⟩
    addFunctions captures module rest

/-- Registers a module in place of any other of its name. -/
def registerModule (m : Module) : EvalM Unit :=
  EvalM.modifyRest fun s => { s with modules := Registry.register s.modules m }

/-- Declares a module. -/
def evalModuleDecl (name : ModuleName) (exports : List String) (functions : List FunctionDecl) :
    EvalM Value := do
  let start ← EvalM.gets (·.rest.functions.size)
  let m ← EvalM.ofExcept (Module.declare name exports (numbered start functions))
  let env ← EvalM.environment
  addFunctions env.bindings (some m) functions
  registerModule m
  return .module m

/-- A module of functions that are not linked to it. -/
def evalModuleBuild (name : ModuleName) (exports : List String) (functions : List FunctionDecl) :
    EvalM Value := do
  let start ← EvalM.gets (·.rest.functions.size)
  let m ← EvalM.ofExcept (Module.build name exports (numbered start functions))
  let env ← EvalM.environment
  addFunctions env.bindings none functions
  registerModule m
  return .module m

/-- The module of a name. -/
def evalModuleRef (name : ModuleName) : EvalM Value := do
  match ← EvalM.gets fun m => Registry.get? m.rest.modules name with
  | some m => return .module m
  | none => EvalM.fail (.undefined name.text .unknownModule)

/-- The function of a qualified name. -/
def resolveIn (module : Value) (name : String) : EvalM Value :=
  match module with
  | .module m => do
    let env ← EvalM.environment
    let id ← EvalM.ofExcept
      (if env.module = some m.name then m.resolveInternal name else m.resolve name)
    return .function id
  | other => EvalM.fail (.typeError "." [other])

end Deferral
