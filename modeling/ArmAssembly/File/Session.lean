import ArmAssembly.File.Disk
import ArmAssembly.File.Host

set_option autoImplicit false

/-! # A session

A disk and a standard output: all that the assembler acts on. As a host, a session makes the
assembler a function on disks.
-/

namespace ArmAssembly

/-- A disk, what was printed, and whether standard output takes anything at all. -/
structure Session where
  disk : Disk
  outputFull : Bool
  printed : String

namespace Session

/-- Reads a file of the disk. -/
def read (name : FileName) : StateM Session (Except IoError (List UInt8)) := fun s =>
  (s.disk.read name, s)

/-- Prints a text, unless standard output is full. -/
def print (text : String) : StateM Session (Except IoError Unit) := fun s =>
  if s.outputFull && !text.isEmpty then (.error .noSpace, s)
  else (.ok (), { s with printed := s.printed ++ text })

/-- The file at `place`, open for writing. -/
def fileSink (place : Place) : Sink (StateM Session) where
  write bytes := fun s =>
    match s.disk.append place bytes with
    | .ok (count, disk) => (.ok count, { s with disk := disk })
    | .error error => (.error error, s)
  flush := fun s => (.ok (), s)

/-- Creates or empties a file of the disk. -/
def create (name : FileName) : StateM Session (Except IoError (Sink (StateM Session))) := fun s =>
  match s.disk.create name with
  | .ok (place, disk) => (.ok (fileSink place), { s with disk := disk })
  | .error error => (.error error, s)

/-- A session as a host. -/
def host : Host (StateM Session) := ⟨read, print, create⟩

end Session

end ArmAssembly
