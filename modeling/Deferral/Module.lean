import Deferral.Error

/-!
# Modules

A module resolves names to functions. From outside only exported names resolve, and a name that is
private and one that does not exist fail differently; from inside every function resolves. A module is
built only if each of its exports is a function of it.
-/

set_option autoImplicit false

namespace Deferral

/-- The names of a list, each at its first place. -/
def distinct : List String → List String
  | [] => []
  | name :: rest => name :: (distinct rest).filter (· != name)

/-- The first name that is in a list a second time, at its second place. -/
def firstRepeated (seen : List String) : List String → Option String
  | [] => none
  | name :: rest => if seen.contains name then some name else firstRepeated (name :: seen) rest

namespace Module

/-- The function of a name, exported or not. -/
def find? (m : Module) (name : String) : Option FunctionId := m.functions.lookup name

def isExported (m : Module) (name : String) : Bool := m.exports.contains name

/-- The exported function of a name. -/
def lookupExport? (m : Module) (name : String) : Option FunctionId :=
  if m.isExported name then m.find? name else none

/-- Resolves a name from inside the module. -/
def resolveInternal (m : Module) (name : String) : Except Error FunctionId :=
  match m.find? name with
  | some id => .ok id
  | none => .error (.undefined name (.unknownFunction m.name.text))

/-- Resolves a name from outside the module. -/
def resolve (m : Module) (name : String) : Except Error FunctionId :=
  match m.resolveInternal name with
  | .error e => .error e
  | .ok id =>
    if m.isExported name then .ok id else .error (.undefined name (.privateFunction m.name.text))

/-- Refuses an export that names no function. -/
def checkExports (name : ModuleName) (exports defined : List String) : Except Error Unit :=
  match exports.find? (fun e => !defined.contains e) with
  | some missing => .error (.resolution (.missingExport name.text missing))
  | none => .ok ()

/-- Refuses a function name that is declared twice. -/
def checkDistinct (name : ModuleName) (declared : List String) : Except Error Unit :=
  match firstRepeated [] declared with
  | some twice => .error (.resolution (.duplicateFunction name.text twice))
  | none => .ok ()

/-- Adds a function, or replaces the one of the same name in its place. -/
def insertFunction : List (String × FunctionId) → String × FunctionId → List (String × FunctionId)
  | [], f => [f]
  | g :: rest, f => if g.1 == f.1 then f :: rest else g :: insertFunction rest f

/-- A module of given functions, where a later function replaces an earlier one of the same name. -/
def build (name : ModuleName) (exports : List String) (functions : List (String × FunctionId)) :
    Except Error Module := do
  let functions := functions.foldl insertFunction []
  let exports := distinct exports
  checkExports name exports (functions.map (·.1))
  return ⟨name, exports, functions⟩

/-- A module of declared functions, where no name may be declared twice. Missing exports are found
first. -/
def declare (name : ModuleName) (exports : List String) (functions : List (String × FunctionId)) :
    Except Error Module := do
  let exports := distinct exports
  let declared := functions.map (·.1)
  checkExports name exports declared
  checkDistinct name declared
  return ⟨name, exports, functions⟩

end Module

/-- The modules that are known by name. -/
abbrev Registry := List Module

namespace Registry

def get? (registry : Registry) (name : ModuleName) : Option Module :=
  registry.find? (·.name == name)

/-- Adds a module, or replaces the one of the same name. -/
def register : Registry → Module → Registry
  | [], m => [m]
  | n :: rest, m => if n.name == m.name then m :: rest else n :: register rest m

end Registry

end Deferral
