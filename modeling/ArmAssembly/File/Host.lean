import ArmAssembly.Failure
import ArmAssembly.File.Sink
import ArmAssembly.Program

set_option autoImplicit false

/-! # Assembling a file

The input is read and assembled before anything is written. The listing goes out first, and
only then is the output file opened, which empties it; so a program that is refused leaves
the output file alone.
-/

namespace ArmAssembly

/-- What the assembler needs of the system it runs on. -/
structure Host (m : Type → Type) where
  /-- The contents of a file. -/
  read : FileName → m (Except IoError (List UInt8))
  /-- Writes to standard output, and makes sure that it arrives. -/
  print : String → m (Except IoError Unit)
  /-- Opens a file for writing, and empties it. -/
  create : FileName → m (Except IoError (Sink m))

variable {m : Type → Type} [Monad m]

/-- The result of a system operation; `wrap` tells what its failure means. -/
def attempt {α : Type} (wrap : IoError → Failure) (act : m (Except IoError α)) :
    ExceptT Failure m α :=
  ExceptT.mk do
    match ← act with
    | .ok a => pure (.ok a)
    | .error error => pure (.error (wrap error))

/-- The text of the file `input`. -/
def readSource (host : Host m) (input : FileName) : ExceptT Failure m (List Char) := do
  let bytes ← attempt (.input input) (host.read input)
  match utf8? bytes with
  | some text => return text.toList
  | none => throw (.input input .notText)

/-- Assembles a source text or tells what is wrong with it. -/
def assembleSource (source : List Char) : Except Failure Binary :=
  match assemble source with
  | .ok binary => .ok binary
  | .error problem => .error (problem.failure source)

theorem exists_problem_of_assembleSource {source : List Char} {failure : Failure}
    (h : assembleSource source = .error failure) :
    ∃ problem, assemble source = .error problem ∧ failure = problem.failure source := by
  unfold assembleSource at h
  cases hassemble : assemble source with
  | ok binary =>
      rw [hassemble] at h
      cases h
  | error problem =>
      rw [hassemble] at h
      cases h
      exact ⟨problem, rfl, rfl⟩

/-- Writes the image of a program to a file that is open. -/
def writeBinary (sink : Sink m) (binary : Binary) (output : FileName) :
    ExceptT Failure m Unit :=
  attempt (.output output) (sink.writeImage binary.image.toList)

/-- Assembles the file `input` into the file `output`, and prints a listing if `list` is
set. -/
def assembleFile (host : Host m) (input output : FileName) (list : Bool) :
    ExceptT Failure m Unit := do
  let source ← readSource host input
  let binary ← ExceptT.mk (pure (assembleSource source))
  if list then attempt .listing (host.print (binary.listing source))
  let sink ← attempt (.output output) (host.create output)
  writeBinary sink binary output

end ArmAssembly
