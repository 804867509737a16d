import ArmAssembly.File.Basic

set_option autoImplicit false

/-! # Writing bytes

A sink takes bytes in pieces. It may take fewer than it is offered, and it may fail; bytes
are offered again until they are taken. Long images are written in chunks.
-/

namespace ArmAssembly

/-- A place to write bytes to. `write` answers how many bytes it took, from the front of
those offered; `flush` makes sure that what was taken arrives. -/
structure Sink (m : Type → Type) where
  write : List UInt8 → m (Except IoError Nat)
  flush : m (Except IoError Unit)

/-- How many bytes are offered at most at a time. -/
def chunkSize : Nat := 4096

/-- The chunks of a sequence of bytes: all are full but the last, and none is empty. -/
def chunks : List UInt8 → List (List UInt8)
  | [] => []
  | b :: rest =>
    (b :: rest.take (chunkSize - 1)) :: chunks (rest.drop (chunkSize - 1))
termination_by bytes => bytes.length
decreasing_by simp only [List.length_cons, List.length_drop]; omega

namespace Sink

variable {m : Type → Type} [Monad m]

/-- Offers bytes until all are taken. A sink that takes none of them has failed. -/
def writeAll (sink : Sink m) : List UInt8 → m (Except IoError Unit)
  | [] => pure (.ok ())
  | b :: rest => do
    match ← sink.write (b :: rest) with
    | .error error => pure (.error error)
    | .ok 0 => pure (.error .writeZero)
    | .ok (taken + 1) => sink.writeAll (rest.drop taken)
termination_by bytes => bytes.length
decreasing_by simp only [List.length_cons, List.length_drop]; omega

/-- Writes one chunk after the other, then flushes. -/
def writeChunks (sink : Sink m) : List (List UInt8) → m (Except IoError Unit)
  | [] => sink.flush
  | chunk :: rest => do
    match ← sink.writeAll chunk with
    | .error error => pure (.error error)
    | .ok _ => sink.writeChunks rest

/-- Writes an image. -/
def writeImage (sink : Sink m) (image : List UInt8) : m (Except IoError Unit) :=
  sink.writeChunks (chunks image)

end Sink

end ArmAssembly
