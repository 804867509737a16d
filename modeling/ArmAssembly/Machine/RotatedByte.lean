import ArmAssembly.Machine.Field

set_option autoImplicit false

/-! # Rotated bytes

The arithmetic instructions have twelve bits for a constant. They hold a byte and a rotation
of four bits; the constant is the byte rotated right by twice the rotation. Only some
constants can be written so, and some can be written in several ways: `ofConstant?` takes
the one with the smallest rotation.
-/

namespace ArmAssembly

/-- A byte and the half of the distance by which it is rotated right. -/
structure RotatedByte where
  rotation : BitVec 4
  byte : BitVec 8
deriving DecidableEq

namespace RotatedByte

/-- The constant that the rotated byte stands for. -/
def constant (b : RotatedByte) : BitVec 32 :=
  (b.byte.setWidth 32).rotateRight (2 * b.rotation.toNat)

/-- The form of the constant `n` with rotation `r`, if `n` has such a form. -/
def withRotation? (n : BitVec 32) (r : Nat) : Option RotatedByte :=
  let unrotated := n.rotateLeft (2 * r)
  if unrotated.toNat < 0x100 then some ⟨BitVec.ofNat 4 r, unrotated.setWidth 8⟩ else none

/-- The form of the constant `n` with the smallest rotation, if `n` has a form at all. -/
def ofConstant? (n : BitVec 32) : Option RotatedByte :=
  (List.range 16).findSome? (withRotation? n)

/-- The operand field: the rotation above the byte. -/
def field (b : RotatedByte) : BitVec 12 :=
  b.rotation ++ b.byte

/-- A rotated byte as an operand: the constant as a hexadecimal literal. -/
def text (b : RotatedByte) : String :=
  Field.text b.constant

end RotatedByte

end ArmAssembly
