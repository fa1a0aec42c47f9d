/-!
# Operators

The operators of the language and the symbols they are written with.
-/

set_option autoImplicit false

namespace Deferral

inductive BinaryOp where
  | add | sub | mul | div | rem
  | eq | ne | lt | le | gt | ge
  | and | or
  | bitAnd | bitOr | bitXor | shiftLeft | shiftRight
  /-- Concatenation of sequences. -/
  | join
  /-- An element in front of a sequence. -/
  | pushFront
  /-- An element after a sequence. -/
  | pushBack
  /-- Membership in a set, the keys of a dictionary, or a sequence. -/
  | mem
  deriving DecidableEq, Repr

inductive UnaryOp where
  | neg
  | not
  | complement
  deriving DecidableEq, Repr

namespace BinaryOp

def symbol : BinaryOp → String
  | .add => "+"
  | .sub => "-"
  | .mul => "*"
  | .div => "/"
  | .rem => "%"
  | .eq => "=="
  | .ne => "!="
  | .lt => "<"
  | .le => "<="
  | .gt => ">"
  | .ge => ">="
  | .and => "&&"
  | .or => "||"
  | .bitAnd => "&"
  | .bitOr => "|"
  | .bitXor => "^"
  | .shiftLeft => "<<"
  | .shiftRight => ">>"
  | .join => "++"
  | .pushFront => "<:"
  | .pushBack => ":>"
  | .mem => "in"

def all : List BinaryOp :=
  [.add, .sub, .mul, .div, .rem, .eq, .ne, .lt, .le, .gt, .ge, .and, .or, .bitAnd, .bitOr, .bitXor,
    .shiftLeft, .shiftRight, .join, .pushFront, .pushBack, .mem]

/-- The operator written with a symbol. -/
def ofSymbol? (symbol : String) : Option BinaryOp := all.find? (·.symbol == symbol)

end BinaryOp

namespace UnaryOp

def symbol : UnaryOp → String
  | .neg => "-"
  | .not => "!"
  | .complement => "~"

def all : List UnaryOp := [.neg, .not, .complement]

/-- The operator written with a symbol. -/
def ofSymbol? (symbol : String) : Option UnaryOp := all.find? (·.symbol == symbol)

end UnaryOp

end Deferral
