/-!
# Dotted module names

A module is named by a list of parts, written with dots between them: `Demo.Math`. Reading a text
splits it at every dot, so any text is the name of some module; writing joins the parts again.
-/

set_option autoImplicit false

namespace Deferral

/-- The name of a module, part by part. -/
structure ModuleName where
  parts : List String
  deriving DecidableEq, Repr, Inhabited

namespace ModuleName

/-- Cuts a text at every dot. There is one piece more than there are dots. -/
def pieces : List Char → List (List Char)
  | [] => [[]]
  | c :: rest =>
    if c = '.' then [] :: pieces rest
    else
      match pieces rest with
      | [] => [[c]]
      | piece :: others => (c :: piece) :: others

/-- Reads a dotted name. -/
def parse (text : String) : ModuleName := ⟨(pieces text.toList).map String.ofList⟩

/-- The parts with a dot between neighbours. -/
def join : List String → String
  | [] => ""
  | [part] => part
  | part :: next :: rest => part ++ "." ++ join (next :: rest)

/-- Writes a dotted name. -/
def text (name : ModuleName) : String := join name.parts

/-- The last part, empty for a name without parts. -/
def simple (name : ModuleName) : String := name.parts.getLast?.getD ""

end ModuleName

end Deferral
