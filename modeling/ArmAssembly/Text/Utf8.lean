set_option autoImplicit false

/-! # Bytes as text

Bytes that are not UTF-8 are shown with a replacement character for each part that cannot be
read. Such a part is as long as possible: the first bytes of a character that is cut short
count as one.
-/

namespace ArmAssembly

/-- The character that stands for bytes that are no text. -/
def replacement : Char := '\ufffd'

/-- A character that has begun: how many bytes it needs, between which bounds the next one
lies, and the bits so far. -/
structure PartialChar where
  missing : Nat
  low : Nat
  high : Nat
  bits : Nat

/-- What a byte begins that stands between characters. -/
inductive FirstByte where
  | whole (c : Char)
  | start (begun : PartialChar)
  | stray

/-- What the byte `b` begins. The bounds on the second byte leave out code points that have a
shorter form, surrogates, and numbers that are no code points. -/
def FirstByte.of (b : Nat) : FirstByte :=
  if b < 0x80 then whole (Char.ofNat b)
  else if b < 0xC2 then stray
  else if b < 0xE0 then start ⟨1, 0x80, 0xBF, b - 0xC0⟩
  else if b < 0xF0 then
    start ⟨2, if b = 0xE0 then 0xA0 else 0x80, if b = 0xED then 0x9F else 0xBF, b - 0xE0⟩
  else if b < 0xF5 then
    start ⟨3, if b = 0xF0 then 0x90 else 0x80, if b = 0xF4 then 0x8F else 0xBF, b - 0xF0⟩
  else stray

/-- Reads bytes as text, after the first bytes of a character or between characters. -/
def lossyFrom : Option PartialChar → List UInt8 → List Char
  | none, [] => []
  | some _, [] => [replacement]
  | none, b :: rest =>
    match FirstByte.of b.toNat with
    | .whole c => c :: lossyFrom none rest
    | .start begun => lossyFrom (some begun) rest
    | .stray => replacement :: lossyFrom none rest
  | some begun, b :: rest =>
    if begun.low ≤ b.toNat ∧ b.toNat ≤ begun.high then
      let bits := 64 * begun.bits + (b.toNat - 0x80)
      if begun.missing ≤ 1 then Char.ofNat bits :: lossyFrom none rest
      else lossyFrom (some ⟨begun.missing - 1, 0x80, 0xBF, bits⟩) rest
    else replacement :: lossyFrom none (b :: rest)
termination_by begun bytes => 2 * bytes.length + begun.toList.length
decreasing_by
  all_goals simp only [List.length_cons, List.length_nil, Option.toList_some, Option.toList_none]
  all_goals omega

/-- Bytes as text, if they are UTF-8. -/
def utf8? (bytes : List UInt8) : Option String :=
  String.fromUTF8? ⟨bytes.toArray⟩

/-- Bytes as text, with replacements for what is not UTF-8. -/
def lossyText (bytes : List UInt8) : String :=
  String.ofList (lossyFrom none bytes)

end ArmAssembly
