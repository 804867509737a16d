set_option autoImplicit false

/-! # Lines and columns

A location says where a reader finds a byte offset: line and column, both counted from one.
Only a line feed ends a line; every other character, tabs and carriage returns among them,
takes one column.
-/

namespace ArmAssembly

/-- A line and a column, counted from one. -/
structure Location where
  line : Nat
  column : Nat
deriving DecidableEq

namespace Location

/-- Where every text begins. -/
def origin : Location := ⟨1, 1⟩

/-- The location after `c`, when `c` stands here. -/
def after (here : Location) (c : Char) : Location :=
  if c = '\n' then ⟨here.line + 1, 1⟩ else ⟨here.line, here.column + 1⟩

/-- Walks `text`, whose first character stands at byte `reached` and at `here`, to the
character that begins at byte `offset`. -/
def walk (offset : Nat) : List Char → Nat → Location → Location
  | [], _, here => here
  | c :: text, reached, here =>
    if reached = offset then here else walk offset text (reached + c.utf8Size) (here.after c)

/-- The location of the character that begins at byte `offset`. An offset at which no
character begins has the location of the end of the text. -/
def ofOffset (text : List Char) (offset : Nat) : Location :=
  walk offset text 0 origin

/-- The wording of a location in messages. -/
def text (here : Location) : String :=
  s!"line {here.line}, column {here.column}"

end Location

end ArmAssembly
