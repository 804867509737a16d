import ArmAssembly.File.Basic
import ArmAssembly.File.Sink

set_option autoImplicit false

/-! # A file system

A disk is a map from places to directories and files. File names are paths: they are walked
component by component from the root or from the working directory, and only the last
component may be missing, in a file that is to be created. A file may have limited room.
-/

namespace ArmAssembly

/-- The names that lead from the root to a file or directory, the last one first. -/
abbrev Place : Type := List (List UInt8)

/-- What is at a place. -/
inductive Node where
  | directory
  | file (contents : List UInt8)
deriving DecidableEq

/-- The files and directories of a system. -/
structure Disk where
  node? : Place → Option Node
  /-- How many bytes the file at a place can hold; without a number there is no limit. -/
  room? : Place → Option Nat
  workingDirectory : Place

/-- How long a whole path may be, in bytes. -/
def maxPathLength : Nat := 4095

/-- How long one component of a path may be, in bytes. -/
def maxNameLength : Nat := 255

/-- The byte that separates the components of a path. -/
def slash : UInt8 := 47

/-- The components of a path. -/
def components (path : List UInt8) : List (List UInt8) :=
  (path.splitOnP (· == slash)).filter (!·.isEmpty)

/-- The last step of a path. -/
inductive LastStep where
  /-- It stays in a directory, as `.`, `..` and the root do. -/
  | directory (place : Place)
  /-- It names something in a directory; `slashed` tells whether a slash follows. -/
  | entry (place : Place) (slashed : Bool)

namespace Disk

/-- The disk with `node` at a place. -/
def setNode (disk : Disk) (place : Place) (node : Node) : Disk :=
  { disk with node? := fun other => if other = place then some node else disk.node? other }

/-- The component `.`. -/
def here : List UInt8 := [46]

/-- The component `..`. -/
def up : List UInt8 := [46, 46]

/-- Walks from a directory along components that have to be directories. -/
def walk (disk : Disk) (place : Place) : List (List UInt8) → Except IoError Place
  | [] => .ok place
  | name :: rest =>
    if name = here then disk.walk place rest
    else if name = up then disk.walk place.tail rest
    else if maxNameLength < name.length then .error .nameTooLong
    else
      match disk.node? (name :: place) with
      | some .directory => disk.walk (name :: place) rest
      | some (.file _) => .error .notDirectory
      | none => .error .notFound

/-- Where a file name leads. -/
def lastStep (disk : Disk) (name : FileName) : Except IoError LastStep :=
  let path := name.bytes
  if path.contains 0 then .error .nulInName
  else if path.isEmpty then .error .notFound
  else if maxPathLength < path.length then .error .nameTooLong
  else
    let start := if path.head? = some slash then [] else disk.workingDirectory
    let names := components path
    match names.getLast? with
    | none => .ok (.directory start)
    | some last => do
      let place ← disk.walk start names.dropLast
      if last = here then return .directory place
      else if last = up then return .directory place.tail
      else return .entry (last :: place) (path.getLast? = some slash)

/-- The name in the last step is too long to be the name of anything. -/
def tooLong (place : Place) : Bool :=
  match place with
  | [] => false
  | name :: _ => maxNameLength < name.length

/-- Reads a whole file. -/
def read (disk : Disk) (name : FileName) : Except IoError (List UInt8) := do
  match ← disk.lastStep name with
  | .directory _ => throw .isDirectory
  | .entry place slashed =>
    if tooLong place then throw .nameTooLong
    else
      match disk.node? place with
      | none => throw .notFound
      | some .directory => throw .isDirectory
      | some (.file contents) => if slashed then throw .notDirectory else return contents

/-- Makes an empty file, or empties the file that is there. Answers the file's place. -/
def create (disk : Disk) (name : FileName) : Except IoError (Place × Disk) := do
  match ← disk.lastStep name with
  | .directory _ => throw .isDirectory
  | .entry place slashed =>
    if slashed then throw .isDirectory
    else if tooLong place then throw .nameTooLong
    else if disk.node? place = some .directory then throw .isDirectory
    else return (place, disk.setNode place (.file []))

/-- The contents of the file at a place. -/
def contents (disk : Disk) (place : Place) : List UInt8 :=
  match disk.node? place with
  | some (.file bytes) => bytes
  | _ => []

/-- Adds bytes at the end of the file at `place`, as many as there is room for. -/
def append (disk : Disk) (place : Place) (bytes : List UInt8) :
    Except IoError (Nat × Disk) :=
  let old := disk.contents place
  let count :=
    match disk.room? place with
    | none => bytes.length
    | some room => min bytes.length (room - old.length)
  if count = 0 && !bytes.isEmpty then .error .noSpace
  else .ok (count, disk.setNode place (.file (old ++ bytes.take count)))

end Disk

end ArmAssembly
