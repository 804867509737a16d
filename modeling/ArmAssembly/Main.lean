import ArmAssembly.CommandLine

set_option autoImplicit false

/-! # The program

The assembler on the system that it runs on. All that happens here is input and output; what
is read, printed and written is decided by `runCommand`.
-/

namespace ArmAssembly.Live

/-- A failure as the system words it, with its number. -/
def numbered (wording : String) (code : UInt32) : IoError :=
  .other s!"{wording} (os error {code})"

/-- The failure behind an exception. -/
def failureOf : IO.Error → IoError
  | .alreadyExists _ code wording => numbered wording code
  | .otherError code wording => numbered wording code
  | .resourceBusy code wording => numbered wording code
  | .resourceVanished code wording => numbered wording code
  | .unsupportedOperation code wording => numbered wording code
  | .hardwareFault code wording => numbered wording code
  | .unsatisfiedConstraints code wording => numbered wording code
  | .illegalOperation code wording => numbered wording code
  | .protocolError code wording => numbered wording code
  | .timeExpired code wording => numbered wording code
  | .interrupted _ code wording => numbered wording code
  | .noFileOrDirectory _ code wording => numbered wording code
  | .invalidArgument _ code wording => numbered wording code
  | .permissionDenied _ code wording => numbered wording code
  | .resourceExhausted _ code wording => numbered wording code
  | .inappropriateType _ code wording => numbered wording code
  | .noSuchThing _ code wording => numbered wording code
  | .unexpectedEof => .other "unexpected end of file"
  | .userError wording => .other wording

/-- The result of an action, or the failure that it ended in. -/
def guarded {α : Type} (act : IO α) : IO (Except IoError α) := do
  try
    return .ok (← act)
  catch e =>
    return .error (failureOf e)

/-- Reads a file. -/
def read (name : FileName) : IO (Except IoError (List UInt8)) :=
  guarded do
    let handle ← IO.FS.Handle.mk name.text .read
    return (← handle.readBinToEnd).toList

/-- Prints a text. -/
def print (text : String) : IO (Except IoError Unit) :=
  guarded do
    let out ← IO.getStdout
    out.putStr text
    out.flush

/-- A file that is open for writing. It takes all bytes that it is offered. -/
def fileSink (handle : IO.FS.Handle) : Sink IO where
  write bytes := guarded do
    handle.write ⟨bytes.toArray⟩
    return bytes.length
  flush := guarded handle.flush

/-- Opens a file for writing, and empties it. -/
def create (name : FileName) : IO (Except IoError (Sink IO)) :=
  guarded do
    return fileSink (← IO.FS.Handle.mk name.text .write)

/-- The system as a host. -/
def host : Host IO := ⟨read, print, create⟩

end ArmAssembly.Live

/-- Runs the assembler with the arguments of the command line. -/
def main (args : List String) : IO UInt32 := do
  let exit ← ArmAssembly.runCommand ArmAssembly.Live.host args
  unless exit.complaint.isEmpty do
    IO.eprint exit.complaint
  return exit.code.toUInt32
