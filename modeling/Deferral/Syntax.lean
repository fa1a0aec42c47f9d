import Deferral.Operator.Basic
import Deferral.Value.Basic

/-!
# Programs

Expressions, the patterns they take values apart with, and the arms of a selection. An arm has a list
of alternatives, each with an optional guard; a plain body is one alternative without a guard.
-/

set_option autoImplicit false

namespace Deferral

/-- Where a call stands in its source. -/
structure Location where
  source : String
  line : Nat
  column : Nat
  deriving DecidableEq, Repr

mutual

/-- An expression. -/
inductive Expr where
  | literal (value : Value)
  | identifier (name : String)
  | tuple (items : List Expr)
  | sequence (items : List Expr)
  | set (items : List Expr)
  | dict (entries : List (Expr × Expr))
  | binary (op : BinaryOp) (left right : Expr)
  | unary (op : UnaryOp) (operand : Expr)
  | branch (condition onTrue onFalse : Expr)
  /-- Bindings in order, each seeing the ones before it, around a body. -/
  | letIn (bindings : List (Pattern × Expr)) (body : Expr)
  /-- Steps in order, each waiting for the one before it. -/
  | block (steps : List Step)
  | select (scrutinee : Expr) (arms : List Arm)
  | lambda (name : Option String) (params : List String) (body : Expr)
  | call (callee : Expr) (args : List Expr) (location : Option Location)
  | moduleDecl (name : ModuleName) (exports : List String) (functions : List FunctionDecl)
  | moduleRef (name : ModuleName)
  | functionRef (module : Expr) (name : String)
  /-- A function without parameters, started as a task. -/
  | spawn (function : Expr)
  | raise (tag : String) (message : Expr)
  /-- A body whose failure is matched against the arms. -/
  | attempt (body : Expr) (arms : List Arm)

/-- A pattern. -/
inductive Pattern where
  | wildcard
  | literal (value : Value)
  | bind (name : String)
  | alias (name : String) (inner : Pattern)
  | tuple (items : List Pattern)
  | sequence (items : List Pattern)
  /-- The first elements, the rest as a sequence, and the last elements. -/
  | cons (front : List Pattern) (rest : Pattern) (back : List Pattern)
  /-- Entries by key, where each key is an expression. -/
  | dict (entries : List (Expr × Pattern))
  | guarded (inner : Pattern) (guard : Expr)

/-- A step of a block. -/
inductive Step where
  | bind (pattern : Pattern) (value : Expr)
  | run (expr : Expr)

/-- An arm of a selection: a pattern and its guarded alternatives. -/
inductive Arm where
  | mk (pattern : Pattern) (alternatives : List (Option Expr × Expr))

/-- A function of a module declaration. -/
inductive FunctionDecl where
  | mk (name : String) (params : List String) (body : Expr)

end

instance : Inhabited Expr := ⟨.literal .unit⟩

instance : Inhabited Pattern := ⟨.wildcard⟩

namespace Arm

def pattern : Arm → Pattern
  | .mk pattern _ => pattern

def alternatives : Arm → List (Option Expr × Expr)
  | .mk _ alternatives => alternatives

end Arm

namespace FunctionDecl

def name : FunctionDecl → String
  | .mk name _ _ => name

def params : FunctionDecl → List String
  | .mk _ params _ => params

def body : FunctionDecl → Expr
  | .mk _ _ body => body

end FunctionDecl

/-- What an expression is called. -/
def Expr.kindName : Expr → String
  | .literal _ => "literal"
  | .identifier _ => "identifier"
  | .tuple _ => "tuple"
  | .sequence _ => "sequence"
  | .set _ => "set"
  | .dict _ => "dict"
  | .binary .. => "binary operation"
  | .unary .. => "unary operation"
  | .branch .. => "if"
  | .letIn .. => "let"
  | .block _ => "do"
  | .select .. => "case"
  | .lambda .. => "lambda"
  | .call .. => "call"
  | .moduleDecl .. => "module"
  | .moduleRef _ => "module reference"
  | .functionRef .. => "function reference"
  | .spawn _ => "async"
  | .raise .. => "raise"
  | .attempt .. => "try"

mutual

/-- The key expressions of a pattern, in the order in which matching uses them. -/
def Pattern.keys : Pattern → List Expr
  | .wildcard => []
  | .literal _ => []
  | .bind _ => []
  | .alias _ inner => inner.keys
  | .tuple items => keysOfItems items
  | .sequence items => keysOfItems items
  | .cons front rest back => keysOfItems front ++ rest.keys ++ keysOfItems back
  | .dict entries => keysOfEntries entries
  | .guarded inner _ => inner.keys
termination_by structural p => p

def Pattern.keysOfItems : List Pattern → List Expr
  | [] => []
  | p :: rest => p.keys ++ keysOfItems rest
termination_by structural ps => ps

def Pattern.keysOfEntries : List (Expr × Pattern) → List Expr
  | [] => []
  | e :: rest => keysOfEntry e ++ keysOfEntries rest
termination_by structural es => es

/-- An entry's own key comes before the keys inside its pattern. -/
def Pattern.keysOfEntry : Expr × Pattern → List Expr
  | (key, p) => key :: p.keys
termination_by structural e => e

end

end Deferral
