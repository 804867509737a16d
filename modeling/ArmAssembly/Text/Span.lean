set_option autoImplicit false

/-! # Spans

A span is a range of byte offsets into the UTF-8 form of a source text, its end excluded.
Source texts are lists of characters, so an offset is reached by adding up the lengths of
the characters before it; an offset inside a character is reached by none.
-/

namespace ArmAssembly

/-- A range of byte offsets into a text; `stop` is excluded. -/
structure Span where
  start : Nat
  stop : Nat
deriving DecidableEq

/-- A value together with the place of the text that it was read from. -/
structure Located (α : Type) where
  value : α
  span : Span
deriving DecidableEq

/-- The empty span at `offset`. -/
def Span.point (offset : Nat) : Span := ⟨offset, offset⟩

/-- The number of bytes that a text takes up in UTF-8. -/
def byteLength : List Char → Nat
  | [] => 0
  | c :: text => c.utf8Size + byteLength text

/-- What follows the first `n` bytes of a text, if a character ends there. -/
def dropBytes : List Char → Nat → Option (List Char)
  | text, 0 => some text
  | [], _ + 1 => none
  | c :: text, n + 1 =>
    if c.utf8Size ≤ n + 1 then dropBytes text (n + 1 - c.utf8Size) else none

/-- The first `n` bytes of a text, if a character ends there. -/
def takeBytes : List Char → Nat → Option (List Char)
  | _, 0 => some []
  | [], _ + 1 => none
  | c :: text, n + 1 =>
    if c.utf8Size ≤ n + 1 then (takeBytes text (n + 1 - c.utf8Size)).map (c :: ·) else none

/-- The part of `text` that a span covers. There is none if the span runs backwards, passes
the end of the text or cuts a character. -/
def Span.text? (span : Span) (text : List Char) : Option (List Char) :=
  if span.start ≤ span.stop then
    (dropBytes text span.start).bind (takeBytes · (span.stop - span.start))
  else none

/-- The part of `text` that a span covers, and the empty text if there is none. -/
def Span.text (span : Span) (text : List Char) : List Char :=
  (span.text? text).getD []

end ArmAssembly
