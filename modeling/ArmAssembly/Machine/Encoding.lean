import ArmAssembly.Machine.Instruction

set_option autoImplicit false

/-! # Instruction words

An instruction is one word of 32 bits, and its condition is in the top four. Most actions
fill the other bits as

    opcode (8 bits), first register (4), destination (4), operand (12).

A branch has a 4-bit opcode and a 24-bit offset, a 16-bit move has the upper four bits of its
value in the place of the first register, and a stack instruction has a 12-bit opcode and
the mask of its registers. Fields are put together by `++`, so none can reach into another.
-/

namespace ArmAssembly

/-- The opcode bit that tells a number from a register in the last operand. It marks numbers
in arithmetic and compare instructions, and registers in transfers. -/
def operandFormBit : BitVec 8 := 0x20

/-- The opcode of an operation on a number, flags left alone. -/
def Arithmetic.opcode : Arithmetic → BitVec 8
  | and => 0x20
  | sub => 0x24
  | add => 0x28
  | orr => 0x38

/-- The opcode of a 16-bit move. -/
def Half.opcode : Half → BitVec 8
  | bottom => 0x30
  | top => 0x34

/-- The opcode of a compare with a number. -/
def compareOpcode : BitVec 8 := 0x35

/-- The opcode of a move between registers. -/
def moveRegisterOpcode : BitVec 8 := 0x1A

/-- The opcode of a transfer with a numeric offset: `010`, then the flags `P` and `U`, a bit
for bytes, the flag `W` and a bit for loads. -/
def TransferKind.opcode (kind : TransferKind) (indexing : Indexing) : BitVec 8 :=
  0b010#3 ++ BitVec.ofBool indexing.before ++ BitVec.ofBool indexing.upward
    ++ BitVec.ofBool (kind = loadByte) ++ BitVec.ofBool indexing.writeBack
    ++ BitVec.ofBool (kind ≠ store)

/-- The opcode of a stack instruction. -/
def StackKind.opcode : StackKind → BitVec 12
  | push => 0x92D
  | pop => 0x8BD

namespace Operand

/-- A register or the bits of a number, as the operand field. -/
def field {α : Type} (bits : α → BitVec 12) : Operand α → BitVec 12
  | immediate value => bits value
  | register source => source.number.setWidth 12

/-- `opcode` for a number, and without `operandFormBit` for a register. -/
def opcode {α : Type} (second : Operand α) (opcode : BitVec 8) : BitVec 8 :=
  match second with
  | immediate _ => opcode
  | register _ => opcode &&& ~~~operandFormBit

end Operand

/-- The layout that most actions share. -/
def layout (opcode : BitVec 8) (first destination : BitVec 4) (operand : BitVec 12) :
    BitVec 28 :=
  opcode ++ first ++ destination ++ operand

/-- The bits of an action. -/
def Action.bits : Action → BitVec 28
  | branch link offset => (if link then 0xB#4 else 0xA#4) ++ offset
  | arithmetic operation setFlags destination first second =>
    layout (second.opcode operation.opcode ||| (BitVec.ofBool setFlags).setWidth 8)
      first.number destination.number (second.field RotatedByte.field)
  | compare first second =>
    layout (second.opcode compareOpcode) first.number 0 (second.field id)
  | moveWide half destination value =>
    layout half.opcode (value.extractLsb' 12 4) destination.number (value.extractLsb' 0 12)
  | moveRegister destination source =>
    layout moveRegisterOpcode 0 destination.number (source.number.setWidth 12)
  | transfer kind indexing destination base offset =>
    let form : BitVec 8 :=
      match offset with
      | .immediate _ => 0
      | .register _ => operandFormBit
    layout (kind.opcode indexing ||| form) base.number destination.number (offset.field id)
  | stack kind registers => kind.opcode ++ Register.mask registers

/-- The word of an instruction. -/
def Instruction.encode (i : Instruction) : BitVec 32 :=
  i.condition.nibble ++ i.action.bits

/-- The bytes of a word as they stand in the image, the lowest first. -/
def littleEndian (word : BitVec 32) : List UInt8 :=
  (List.range 4).map fun i => UInt8.ofBitVec (word.extractLsb' (8 * i) 8)

/-- A word as eight hexadecimal digits. -/
def wordText (word : BitVec 32) : String :=
  paddedHex 8 word.toNat

end ArmAssembly
