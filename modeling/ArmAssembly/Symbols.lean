import ArmAssembly.Machine.Address
import ArmAssembly.Text.Span
import Std.Data.TreeMap

set_option autoImplicit false

/-! # Symbol tables

A symbol table gives labels their addresses. Names differ also in case, the first definition
of a name counts, and the names are kept in ascending order of their characters.
-/

namespace ArmAssembly

/-- Where a label was defined and which address it has. -/
structure Definition where
  address : Address
  span : Span
deriving DecidableEq

/-- The labels of a program. -/
structure Symbols where
  definitions : Std.TreeMap String Definition

namespace Symbols

/-- The table without labels. -/
def empty : Symbols := ⟨∅⟩

/-- The definition of a name. -/
def find? (s : Symbols) (name : String) : Option Definition :=
  s.definitions[name]?

/-- The address of a name. -/
def address? (s : Symbols) (name : String) : Option Address :=
  (s.find? name).map Definition.address

/-- The name is defined. -/
def contains (s : Symbols) (name : String) : Bool :=
  s.definitions.contains name

/-- How many names are defined. -/
def size (s : Symbols) : Nat :=
  s.definitions.size

/-- No name is defined. -/
def isEmpty (s : Symbols) : Bool :=
  s.definitions.isEmpty

/-- Defines `name`, unless it is defined already. Tells whether it was new. -/
def define (s : Symbols) (name : String) (definition : Definition) : Bool × Symbols :=
  if s.contains name then (false, s) else (true, ⟨s.definitions.insert name definition⟩)

/-- The names in ascending order with their addresses. -/
def toList (s : Symbols) : List (String × Address) :=
  s.definitions.toList.map fun (name, definition) => (name, definition.address)

/-- The table as text, one line for each name. -/
def text (s : Symbols) : String :=
  String.join (s.toList.map fun (name, address) =>
    padRight 20 name ++ " = " ++ padLeft 6 ' ' address.text ++ "\n")

end Symbols

end ArmAssembly
