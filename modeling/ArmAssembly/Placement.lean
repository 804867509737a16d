import ArmAssembly.Listing
import ArmAssembly.Pass
import Std.Data.TreeSet

set_option autoImplicit false

/-! # The second pass

The second pass knows all labels. It turns each item into an entry of the listing, and puts
the bytes of the entry at the end of the image. An item that has no entry leaves image,
listing and address as they were.

Branches reach their label by a distance, counted from the address two behind the branch; a
register that takes a label gets the byte at which the label lies if every address before it
holds a word and the image is loaded at `loadAddress`.
-/

namespace ArmAssembly

/-- The byte at which images are loaded. -/
def loadAddress : Nat := 0x8000

/-- The program as far as it is assembled: the address reached, the image, the entries and
the names of the labels that were declared. -/
structure Placement where
  address : Address
  image : Array UInt8
  entries : Array Entry
  declared : Std.TreeSet String

namespace Placement

/-- Where the second pass begins. -/
def initial : Placement := ⟨.zero, #[], #[], ∅⟩

/-- The address of a label that is used. -/
def resolve (symbols : Symbols) (name : Located String) : Except Problem Address :=
  match symbols.address? name.value with
  | some address => .ok address
  | none => .error ⟨.undefinedLabel name.value, name.span⟩

/-- The operand made of the label `name` does not fit into its place. -/
def tooWide {α : Type} (name : Located String) (literal : String) (place : OperandPlace) :
    Except Problem α :=
  .error ⟨.unencodable (.tooWide literal place), name.span⟩

/-- The offset field of a branch at `here`. -/
def branchField (symbols : Symbols) (here : Address) :
    Target → Except Problem (BitVec 24)
  | .offset field => .ok field
  | .label name => do
    let destination ← resolve symbols name
    let distance := destination.distanceFrom (here.advance 2)
    match Field.ofSigned distance with
    | .ok field => .ok field
    | .error _ => tooWide name (toString distance) .branchTarget

/-- The number that stands for a label in a register. -/
def labelValue (symbols : Symbols) (name : Located String) : Except Problem (BitVec 16) := do
  let address ← resolve symbols name
  let absolute := loadAddress + 4 * address.toNat
  match Field.ofNat? 16 absolute with
  | some value => .ok value
  | none => tooWide name ("0x" ++ upperHex absolute) .labelAddress

/-- The entry of an instruction. -/
def instructionEntry (here : Address) (i : Instruction) (span : Span) : Entry :=
  .instruction here i i.encode span

/-- The entry of a label when it is declared for the first time. It has to be where the first
pass found it. -/
def labelEntry (symbols : Symbols) (here : Address) (name : String) (span : Span) :
    Except Problem Entry :=
  match symbols.address? name with
  | some address =>
    if address = here then .ok (.label here name)
    else .error ⟨.movedLabel name address here, span⟩
  | none => .error ⟨.undefinedLabel name, span⟩

/-- The entry of an item at the address reached, if it has one: a label that was declared
before has none. -/
def entry? (symbols : Symbols) (p : Placement) (item : Located Item) :
    Except Problem (Option Entry) :=
  match item.value with
  | .label name =>
    if p.declared.contains name then .ok none
    else (labelEntry symbols p.address name item.span).map some
  | .instruction i => .ok (some (instructionEntry p.address i item.span))
  | .branch condition link target => do
    let field ← branchField symbols p.address target
    return some (instructionEntry p.address ⟨condition, .branch link field⟩ item.span)
  | .loadLabel condition destination name => do
    let value ← labelValue symbols name
    return some
      (instructionEntry p.address ⟨condition, .moveWide .bottom destination value⟩ item.span)
  | .data block => .ok (some (.data p.address block item.span))

/-- The placement with one more entry. -/
def append (p : Placement) (entry : Entry) : Placement :=
  { p with
    address := p.address.advance entry.units
    image := p.image ++ entry.image
    entries := p.entries.push entry }

/-- The placement with the name of the label declared, if the item is a label. -/
def declare (p : Placement) (item : Located Item) : Placement :=
  match item.value with
  | .label name => { p with declared := p.declared.insert name }
  | _ => p

/-- The second pass. -/
def pass (symbols : Symbols) : Pass Placement := fun item p =>
  match p.entry? symbols item with
  | .ok (some entry) => .ok () ((p.declare item).append entry)
  | .ok none => .ok () p
  | .error problem => .error problem (p.declare item)

end Placement

end ArmAssembly
