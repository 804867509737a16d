import ArmAssembly.Text.Numeral

set_option autoImplicit false

/-! # Addresses

Addresses count statements, not bytes: an instruction or a word of data takes one address,
and so does a whole block of bytes. They are words of 32 bits, and counting wraps around.
-/

namespace ArmAssembly

/-- The index of a statement in the assembled program. -/
structure Address where
  word : BitVec 32
deriving DecidableEq

namespace Address

/-- The first address. -/
def zero : Address := ⟨0⟩

/-- The address `n`, modulo 2 ^ 32. -/
def ofNat (n : Nat) : Address := ⟨BitVec.ofNat 32 n⟩

/-- The address as a number. -/
def toNat (a : Address) : Nat := a.word.toNat

/-- The address `units` further on. -/
def advance (a : Address) (units : Nat) : Address :=
  ⟨a.word + BitVec.ofNat 32 units⟩

/-- The next address. -/
def next (a : Address) : Address := a.advance 1

/-- How far `a` lies behind `origin`, as a signed number. -/
def distanceFrom (a origin : Address) : Int :=
  (a.toNat : Int) - origin.toNat

/-- The address in base ten. -/
def text (a : Address) : String := toString a.toNat

/-- The address in base sixteen, with at least four digits. -/
def hex (a : Address) : String := paddedHex 4 a.toNat

end Address

end ArmAssembly
