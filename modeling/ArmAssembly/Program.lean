import ArmAssembly.Placement
import ArmAssembly.Token.Scan

set_option autoImplicit false

/-! # Assembling a program

A program is scanned once and passed over twice. The first pass counts addresses and defines
the labels. It refuses nothing: a label that is used may be defined later, and a second
definition of a label is passed over. The second pass makes the image. The first problem ends it
all, so a program that cannot be read is refused before any of its labels is looked up.
-/

namespace ArmAssembly

/-! ## The first pass -/

/-- The labels found so far and the address reached. -/
structure Layout where
  symbols : Symbols
  address : Address

namespace Layout

/-- Where the first pass begins. -/
def initial : Layout := ⟨.empty, .zero⟩

/-- The layout after an item. -/
def add (layout : Layout) (item : Located Item) : Layout :=
  match item.value with
  | .label name =>
    ⟨(layout.symbols.define name ⟨layout.address, item.span⟩).2, layout.address⟩
  | other => ⟨layout.symbols, layout.address.advance other.units⟩

/-- The first pass. -/
def pass : Pass Layout := fun item layout => .ok () (layout.add item)

end Layout

/-! ## Assembling -/

/-- An assembled program. -/
structure Binary where
  image : Array UInt8
  symbols : Symbols
  entries : Array Entry

namespace Binary

/-- The listing of an assembled program, next to the text it was made of. -/
def listing (binary : Binary) (source : List Char) : String :=
  ArmAssembly.listing source binary.symbols binary.entries.toList

end Binary

/-- The first pass over a program: its labels, and the address behind its last statement. -/
def layoutOf (tokens : List Token) : Except Problem Layout :=
  Pass.outcome (Layout.pass.run tokens .initial)

/-- The second pass over a program. -/
def placementOf (symbols : Symbols) (tokens : List Token) : Except Problem Placement :=
  Pass.outcome ((Placement.pass symbols).run tokens .initial)

/-- Assembles a sequence of tokens. -/
def assembleTokens (tokens : List Token) : Except Problem Binary := do
  let layout ← layoutOf tokens
  let placement ← placementOf layout.symbols tokens
  return ⟨placement.image, layout.symbols, placement.entries⟩

/-- Assembles a source text. -/
def assemble (source : List Char) : Except Problem Binary := do
  let tokens ← scan source
  assembleTokens tokens

theorem assemble_of_scan {source : List Char} {tokens : List Token} (h : scan source = .ok tokens) :
    assemble source = assembleTokens tokens := by
  rw [assemble, h]
  rfl

end ArmAssembly
