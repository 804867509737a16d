import ArmAssembly.Text.Numeral

set_option autoImplicit false

/-! # Fields of an instruction word

A field of `w` bits is a `BitVec w`. A machine integer of any width, signed or not, is put
into a field by `Field.ofMachine`, which refuses what does not fit; what fits keeps its
value. A signed distance is put into a field of 24 bits in two's complement by
`Field.ofSigned` and read back by `BitVec.toInt`.
-/

namespace ArmAssembly

/-- Why a number does not fit into a field. -/
inductive FitError where
  | tooLarge
  | tooSmall
deriving DecidableEq

/-- The wording of a number that does not fit. -/
def FitError.message : FitError → String
  | .tooLarge => "value is too large"
  | .tooSmall => "value is too small"

/-- A type of machine integers: how many bits they have and whether the top bit is a sign. -/
structure IntType where
  width : Nat
  signed : Bool
deriving DecidableEq

/-- The number that the bits of a machine integer stand for. -/
def IntType.value (type : IntType) (bits : BitVec type.width) : Int :=
  if type.signed then bits.toInt else bits.toNat

namespace Field

/-- Puts a machine integer into a field of `w` bits: a set sign bit makes it too small, and
otherwise the bits have to stand for a number below `2 ^ w`. -/
def ofMachine (w : Nat) (type : IntType) (bits : BitVec type.width) :
    Except FitError (BitVec w) :=
  if type.signed && bits.msb then .error .tooSmall
  else if Nat.pow 2 w ≤ bits.toNat then .error .tooLarge
  else .ok (bits.setWidth w)

/-- The natural number `n` as a field of `w` bits, if it fits. -/
def ofNat? (w n : Nat) : Option (BitVec w) :=
  if h : n < Nat.pow 2 w then some (BitVec.ofNatLT n h) else none

/-- The integer `n` in two's complement of 24 bits. -/
def ofSigned (n : Int) : Except FitError (BitVec 24) :=
  if n < -0x800000 then .error .tooSmall
  else if 0x800000 ≤ n then .error .tooLarge
  else .ok (BitVec.ofInt 24 n)

/-- A field as an operand: a hexadecimal literal in upper case. -/
def text {w : Nat} (field : BitVec w) : String :=
  "0x" ++ upperHex field.toNat

/-- A field in diagnostics: its width and its bits. -/
def inspect {w : Nat} (field : BitVec w) : String :=
  s!"Unsigned{w}Bit" ++ "\x7bbits: 0x" ++ lowerHex field.toNat ++ "\x7d"

end Field

end ArmAssembly
