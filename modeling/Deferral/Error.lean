import Deferral.Value.Text

/-!
# Errors

Each way in which evaluation fails is a constructor, and `Error.message` is the one place where it is
put into words. An error that leaves a function body is *traced*: it is wrapped once with the calls
that were active there. A handler sees an error as the triple of its tag, its text and its stack.
-/

set_option autoImplicit false

namespace Deferral

/-- One active call. -/
structure StackFrame where
  source : String
  /-- The name of the function, qualified by its module. -/
  function : String
  line : Option Nat
  column : Option Nat
  deriving DecidableEq, Repr, Inhabited

/-- Active calls, innermost first. -/
abbrev StackTrace := List StackFrame

/-- Which look-up of a name failed. -/
inductive UndefinedKind where
  | identifier
  | unknownFunction (module : String)
  | privateFunction (module : String)
  | unknownModule
  deriving DecidableEq, Repr

/-- Sub-patterns that can never be the rest of a sequence. -/
inductive RestKind where
  | tuple
  | dictionary
  | otherLiteral
  deriving DecidableEq, Repr

/-- What makes a pattern, a declaration or a settlement invalid in itself. -/
inductive Fault where
  | selfFulfilment
  | missingExport (module name : String)
  | duplicateFunction (module name : String)
  | missingKey
  | badRest (kind : RestKind)
  | custom (message : String)
  deriving DecidableEq, Repr

/-- Why evaluation failed. -/
inductive Error where
  /-- An operation met values it is not defined for. -/
  | typeError (operation : String) (values : List Value)
  | undefined (name : String) (kind : UndefinedKind)
  /-- No pattern fits the value with this text. -/
  | noMatch (value : String)
  | arity (function : String) (expected got : Nat)
  /-- Raised by the program itself. -/
  | raised (tag message : String) (stack : StackTrace)
  | resolution (fault : Fault)
  | divisionByZero
  | overflow (operation : String)
  | notCallable (value : String)
  | stackOverflow (depth max : Nat)
  | taskFailed (message : String)
  | interrupted
  /-- An error with the calls that were active where it left a function body. -/
  | traced (cause : Error) (stack : StackTrace)
  deriving Inhabited

/-- The result of an evaluation that has come to an end. -/
abbrev Outcome := Except Error Value

def RestKind.text : RestKind → String
  | .tuple => "tuple"
  | .dictionary => "dictionary"
  | .otherLiteral => "non-sequence literal"

def Fault.message : Fault → String
  | .selfFulfilment => "promise fulfilled with itself"
  | .missingExport module name =>
    "module " ++ module ++ " exports " ++ name ++ " but does not define it"
  | .duplicateFunction module name =>
    "function " ++ name ++ " is declared twice in module " ++ module
  | .missingKey => "dictionary pattern key was not evaluated"
  | .badRest kind => kind.text ++ " pattern cannot match the rest of a sequence"
  | .custom message => message

def UndefinedKind.message (name : String) : UndefinedKind → String
  | .identifier => "Identifier '" ++ name ++ "' not found in the current scope"
  | .unknownFunction module => "Function " ++ name ++ " is not present in module " ++ module
  | .privateFunction module => "Function " ++ name ++ " is not exported from module " ++ module
  | .unknownModule => "Module " ++ name ++ " not found"

namespace Error

/-- The error in words. -/
def message (labels : Labels) : Error → String
  | .typeError operation values =>
    "Type error: operation \"" ++ operation ++ "\" not defined for " ++
      commaJoin (values.map fun v => v.typeName ++ " " ++ v.quoted labels)
  | .undefined name kind => kind.message name
  | .noMatch value => "NoMatchException: no pattern matched " ++ value
  | .arity function expected got =>
    "Unexpected number of arguments when calling '" ++ function ++ "': " ++ Number.natText got ++
      " given, " ++ Number.natText expected ++ " expected"
  | .raised tag message _ => ":" ++ tag ++ ": " ++ message
  | .resolution fault => "Resolution error: " ++ fault.message
  | .divisionByZero => "Division by zero"
  | .overflow operation => "Integer overflow in \"" ++ operation ++ "\""
  | .notCallable value => "Cannot invoke non-function value " ++ value
  | .stackOverflow depth max =>
    "Stack overflow: call depth " ++ Number.natText depth ++ " exceeds maximum " ++ Number.natText max
  | .taskFailed message => "Async task failed: " ++ message
  | .interrupted => "Evaluation interrupted"
  | .traced cause _ => cause.message labels

/-- The operands a type error is about. -/
def operands : Error → List Value
  | .typeError _ values => values
  | .traced cause _ => cause.operands
  | _ => []

/-- The promises that the words of an error look into. -/
def promises (e : Error) : List PromiseId := Value.promisesItems e.operands

/-- The error as it was first raised. -/
def root : Error → Error
  | .traced cause _ => cause.root
  | e => e

/-- The symbol a handler sees. -/
def tag : Error → String
  | .typeError .. => "type_error"
  | .notCallable _ => "type_error"
  | .undefined _ .identifier => "undefined_identifier"
  | .undefined _ (.unknownFunction _) => "undefined_function"
  | .undefined _ (.privateFunction _) => "private_function"
  | .undefined _ .unknownModule => "undefined_module"
  | .noMatch _ => "nomatch"
  | .arity .. => "arity"
  | .raised tag .. => tag
  | .resolution _ => "resolution"
  | .divisionByZero => "arithmetic"
  | .overflow _ => "arithmetic"
  | .stackOverflow .. => "stack_overflow"
  | .taskFailed _ => "task_failed"
  | .interrupted => "interrupted"
  | .traced cause _ => cause.tag

/-- The text a handler sees: a raised message as it was given, any other error in words. -/
def text (labels : Labels) (e : Error) : String :=
  match e.root with
  | .raised _ message _ => message
  | other => other.message labels

/-- Attaches the stack of the function the error leaves. Only the first stack sticks, and an
interruption never carries one. -/
def withStack (stack : StackTrace) : Error → Error
  | e@(.raised ..) => e
  | e@(.traced ..) => e
  | .interrupted => .interrupted
  | e => .traced e stack

/-- The stack an error carries. -/
def stack? : Error → Option StackTrace
  | .raised _ _ stack => some stack
  | .traced _ stack => some stack
  | _ => none

/-- Whether a handler may intercept the error: interruption alone passes every handler. -/
def catchable (e : Error) : Bool :=
  match e.root with
  | .interrupted => false
  | _ => true

end Error

/-- The promises that the text of an outcome looks into. -/
def Outcome.promises : Outcome → List PromiseId
  | .ok v => v.promises
  | .error e => e.promises

/-- A line or column as a value; an unknown one is unit. -/
def positionValue : Option Nat → Value
  | some n => .int (Int64.ofNat n)
  | none => .unit

def StackFrame.toValue (frame : StackFrame) : Value :=
  .tuple [.ofText frame.source, .ofText frame.function, positionValue frame.line,
    positionValue frame.column]

/-- The triple a handler matches: tag, text and stack. An error without a stack of its own shows the
stack at the handler. -/
def Error.toTriple (labels : Labels) (fallback : StackTrace) (e : Error) : Value :=
  .tuple [.symbol e.tag, .ofText (e.text labels),
    .seqOf ((e.stack?.getD fallback).map StackFrame.toValue)]

end Deferral
