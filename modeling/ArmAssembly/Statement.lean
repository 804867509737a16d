import ArmAssembly.Machine.Encoding
import ArmAssembly.Text.Span

set_option autoImplicit false

/-! # Statements

A program is a sequence of statements. Each is an optional label declaration and one
operation; both reach the passes of the assembler as items, in the order in which they are
written. Labels stand in items by name, and become numbers only in the second pass.
-/

namespace ArmAssembly

/-- Where a branch goes: a number for its offset field, or a label. -/
inductive Target where
  | offset (field : BitVec 24)
  | label (name : Located String)
deriving DecidableEq

/-- The data of a directive. -/
inductive Block where
  | bytes (contents : List UInt8)
  | words (contents : List (BitVec 32))
deriving DecidableEq

namespace Block

/-- How many addresses a block takes. Bytes take one together, however many there are; words
take one each. -/
def units : Block → Nat
  | bytes _ => 1
  | words contents => contents.length

/-- A block as it stands in the image. -/
def image : Block → List UInt8
  | bytes contents => contents
  | words contents => contents.flatMap littleEndian

/-- The bytes of a block with blanks between them. -/
def text (block : Block) : String :=
  " ".intercalate (block.image.map byteHex)

end Block

/-- What a part of a statement asks for. -/
inductive Item where
  /-- The address reached gets a name. -/
  | label (name : String)
  /-- An instruction without labels. -/
  | instruction (i : Instruction)
  /-- A branch, with or without link. -/
  | branch (condition : Condition) (link : Bool) (target : Target)
  /-- A register takes the place of a label in memory. -/
  | loadLabel (condition : Condition) (destination : Register) (name : Located String)
  /-- Data. -/
  | data (block : Block)
deriving DecidableEq

/-- How many addresses an item takes. -/
def Item.units : Item → Nat
  | label _ => 0
  | instruction _ => 1
  | branch _ _ _ => 1
  | loadLabel _ _ _ => 1
  | data block => block.units

end ArmAssembly
