import Deferral.Eval.Machine
import Deferral.Operator.Arithmetic

/-!
# Native operations

What the prelude's operations compute, and how the operations of the host act on the machine: they
write to the log first, then interrupt, then answer.
-/

set_option autoImplicit false

namespace Deferral

/-- The name of a value's variant in lower case. -/
def Value.typeTag (v : Value) : String := String.ofList (v.typeName.toList.map Char.toLower)

namespace Native

def sizeOf (args : List Value) (v : Value) : EvalM Value :=
  match v.size? with
  | some n => EvalM.ofExcept (Operator.intResult "len" n)
  | none => EvalM.fail (.typeError "len" args)

def answer : Answer → EvalM Value
  | .value v => pure v
  | .error e => EvalM.fail e
  | .panic payload => throw (.panic payload)

/-- Carries out what a host operation replied. -/
def reply (r : Reply) : EvalM Value := do
  EvalM.logValues r.logged
  if r.interrupts then EvalM.modifyRest ({ · with interrupted := true })
  answer r.answer

/-- Runs a native operation on arguments that are all there. -/
def run (host : String → List Value → Reply) : Native → List Value → EvalM Value
  | .typeOf, [v] => pure (.symbol v.typeTag)
  | .len, [v] => sizeOf [v] v
  | .identity, [v] => pure v
  | .display, [v] => do
    let text ← EvalM.gets fun m => v.plain m.directory.labels
    return .ofText text
  | .host name, args => reply (host name args)
  | _, args => EvalM.fail (.typeError "native" args)

end Native

/-- The natives every program can be given, with their arities. -/
def prelude : List (String × Native × Nat) :=
  [("type_of", .typeOf, 1), ("len", .len, 1), ("identity", .identity, 1), ("show", .display, 1)]

end Deferral
