import ArmAssembly.File.Sink

set_option autoImplicit false

/-! # Buffers with limits

A sink in memory. It can be told to take only so many bytes at a time and only so many in
all, and to fail when it is flushed; it remembers how it was used.
-/

namespace ArmAssembly

/-- What a buffer allows. Without a number there is no limit. -/
structure BufferLimits where
  /-- How many bytes it takes at a time. -/
  perWrite : Option Nat
  /-- How many bytes it takes in all. -/
  capacity : Option Nat
  /-- Its failure when more bytes come. -/
  overflow : IoError
  /-- Its failure when it is flushed, if it fails then. -/
  flushing : Option IoError

/-- What a buffer holds, and how it came to that. -/
structure Buffer where
  contents : Array UInt8
  requests : Array Nat
  flushes : Nat

/-- `n`, or the limit if it is smaller. -/
def limited (limit : Option Nat) (n : Nat) : Nat :=
  match limit with
  | some most => min most n
  | none => n

namespace Buffer

/-- A buffer that was not used yet. -/
def empty : Buffer := ⟨#[], #[], 0⟩

/-- How many of `n` bytes the buffer takes now, if it takes any. -/
def accepts (limits : BufferLimits) (buffer : Buffer) (n : Nat) : Except IoError Nat :=
  match limits.capacity with
  | none => .ok (limited limits.perWrite n)
  | some capacity =>
    if 0 < n ∧ capacity ≤ buffer.contents.size then .error limits.overflow
    else .ok (limited limits.perWrite (min n (capacity - buffer.contents.size)))

/-- The sink that fills a buffer. -/
def sink (limits : BufferLimits) : Sink (StateM Buffer) where
  write bytes := fun buffer =>
    let used : Buffer := { buffer with requests := buffer.requests.push bytes.length }
    match buffer.accepts limits bytes.length with
    | .ok n => (.ok n, { used with contents := buffer.contents ++ bytes.take n })
    | .error error => (.error error, used)
  flush := fun buffer =>
    let used : Buffer := { buffer with flushes := buffer.flushes + 1 }
    match limits.flushing with
    | none => (.ok (), used)
    | some error => (.error error, used)

end Buffer

end ArmAssembly
