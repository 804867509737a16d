import ArmAssembly.File.Basic
import ArmAssembly.Program

set_option autoImplicit false

/-! # The log

The log tells what the assembler does while it does it. Notes are taken beside the passes
and change nothing in them: `assembleLogged` has the outcome of `assemble`, and the notes up
to its end, whether it succeeds or fails.
-/

namespace ArmAssembly

/-- How much a note matters. -/
inductive LogLevel where
  | trace
  | debug
  | info
deriving DecidableEq

/-- A note, with the names of the activities that it belongs to, the outermost first. -/
structure Note where
  level : LogLevel
  scopes : List String
  message : String
deriving DecidableEq

namespace Note

/-- The activity of the first pass. -/
def layoutScope : List String := ["assembly pass 1"]

/-- The activity of the second pass. -/
def placementScope : List String := ["assembly pass 2"]

/-- The activity of writing an image. -/
def writingScope : List String := ["write binary program"]

/-- A label gets its address. -/
def defining (name : String) (address : Address) : Note :=
  ⟨.trace, layoutScope, s!"defining label {name} as {address.text}"⟩

/-- A label has an address already. -/
def redefining (name : String) (address : Address) (existing : Definition) : Note :=
  ⟨.debug, layoutScope,
    s!"ignoring redefinition of label {name} as {address.text}; it is already defined as " ++
      s!"{existing.address.text} (at byte offset {existing.span.start})"⟩

/-- The first pass has ended. -/
def layoutEnd (layout : Layout) : Note :=
  ⟨.debug, layoutScope,
    s!"pass 1 ended at address {layout.address.text} with {layout.symbols.size} labels"⟩

/-- An instruction went into the image. -/
def instruction (address : Address) (word : BitVec 32) (i : Instruction) : Note :=
  ⟨.trace, placementScope, s!"{address.hex}: {wordText word} {i.text}"⟩

/-- Data went into the image. -/
def data (address : Address) (block : Block) : Note :=
  ⟨.trace, placementScope, s!"{address.hex}: data {block.text}"⟩

/-- The second pass has ended. -/
def placementEnd (placement : Placement) : Note :=
  ⟨.debug, placementScope, s!"pass 2 generated {placement.image.size} bytes"⟩

/-- The program is assembled. -/
def assembled (layout : Layout) (placement : Placement) : Note :=
  ⟨.info, [], s!"assembled {layout.address.text} statement addresses into " ++
    s!"{placement.image.size} bytes"⟩

/-- An image is about to be written. -/
def writing (binary : Binary) (file : FileName) : Note :=
  ⟨.debug, writingScope, s!"writing {binary.image.size} bytes to {file.text}"⟩

end Note

/-- A pass that takes notes: `notes` are those of an item that the pass does not refuse. -/
def Pass.noting {σ : Type} (pass : Pass σ) (notes : σ → Located Item → List Note) :
    Pass (σ × Array Note) := fun item (result, log) =>
  match pass item result with
  | .ok _ next => .ok () (next, log ++ notes result item)
  | .error problem next => .error problem (next, log)

/-- The notes of the first pass on an item. -/
def Layout.notes (layout : Layout) (item : Located Item) : List Note :=
  match item.value with
  | .label name =>
    match layout.symbols.find? name with
    | some existing => [.redefining name layout.address existing]
    | none => [.defining name layout.address]
  | _ => []

/-- The notes of the second pass on an item: those of its entry. -/
def Placement.notes (symbols : Symbols) (p : Placement) (item : Located Item) : List Note :=
  match p.entry? symbols item with
  | .ok (some (.instruction address i word _)) => [.instruction address word i]
  | .ok (some (.data address block _)) => [.data address block]
  | _ => []

/-- Assembles a source text and takes notes. -/
def assembleLogged (source : List Char) : Except Problem Binary × Array Note :=
  match scan source with
  | .error problem => (.error problem, #[])
  | .ok tokens =>
    match (Layout.pass.noting Layout.notes).run tokens (.initial, #[]) with
    | .error problem s => (.error problem, s.result.2)
    | .ok _ s =>
      let (layout, log) := s.result
      let log := log.push (.layoutEnd layout)
      let pass := (Placement.pass layout.symbols).noting (Placement.notes layout.symbols)
      match pass.run tokens (.initial, log) with
      | .error problem s => (.error problem, s.result.2)
      | .ok _ s =>
        let (placement, log) := s.result
        (.ok ⟨placement.image, layout.symbols, placement.entries⟩,
          (log.push (.placementEnd placement)).push (.assembled layout placement))

end ArmAssembly
