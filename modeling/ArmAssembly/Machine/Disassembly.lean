import ArmAssembly.Machine.Instruction

set_option autoImplicit false

/-! # The text of an instruction

Disassembly writes one instruction on one line: the mnemonic with its condition and the
letter that tells a number (`i`) from a register (`r`), then flags, then operands. Branches
show their offset as a signed number. All other instructions are written the way the
assembler reads them.
-/

namespace ArmAssembly

/-- The mnemonic of an arithmetic operation. -/
def Arithmetic.name : Arithmetic → String
  | and => "AND"
  | sub => "SUB"
  | add => "ADD"
  | orr => "ORR"

/-- The mnemonic of a 16-bit move. -/
def Half.name : Half → String
  | bottom => "MOVW"
  | top => "MOVT"

/-- The mnemonic of a transfer. -/
def TransferKind.name : TransferKind → String
  | store => "STR"
  | load => "LDR"
  | loadByte => "LDRB"

/-- The mnemonic of a stack instruction. -/
def StackKind.name : StackKind → String
  | push => "PUSH"
  | pop => "POP"

/-- `letter` if the flag is set. -/
def flagText (flag : Bool) (letter : String) : String :=
  if flag then letter else ""

/-- The flags of a transfer, with the dash in front of them if there are any. -/
def Indexing.text (indexing : Indexing) : String :=
  if indexing = ⟨false, false, false⟩ then ""
  else " -" ++ flagText indexing.before "P" ++ flagText indexing.upward "U"
    ++ flagText indexing.writeBack "W"

namespace Operand

/-- The letter that the mnemonic takes for the form of its last operand. -/
def letter {α : Type} : Operand α → String
  | immediate _ => "i"
  | register _ => "r"

/-- The last operand, given the text of a number. -/
def text {α : Type} (number : α → String) : Operand α → String
  | immediate value => "#" ++ number value
  | register source => source.text

end Operand

/-- A signed number with its sign in front, also when it is not negative. -/
def signedText (n : Int) : String :=
  if n < 0 then "-" ++ toString n.natAbs else "+" ++ toString n.natAbs

/-- The text of an instruction. -/
def Instruction.text (i : Instruction) : String :=
  let condition := i.condition.text
  match i.action with
  | .branch link offset =>
    (if link then "BL" else "B") ++ condition ++ " " ++ signedText offset.toInt
  | .arithmetic operation setFlags destination first second =>
    operation.name ++ condition ++ second.letter ++ flagText setFlags " -S" ++ " "
      ++ destination.text ++ ", " ++ first.text ++ ", " ++ second.text RotatedByte.text
  | .compare first second =>
    "CMP" ++ condition ++ second.letter ++ " " ++ first.text ++ ", " ++ second.text Field.text
  | .moveWide half destination value =>
    half.name ++ condition ++ "i " ++ destination.text ++ ", #" ++ Field.text value
  | .moveRegister destination source =>
    "MOV" ++ condition ++ "r " ++ destination.text ++ ", " ++ source.text
  | .transfer kind indexing destination base offset =>
    kind.name ++ condition ++ offset.letter ++ indexing.text ++ " " ++ destination.text ++ ", "
      ++ base.text ++ ", " ++ offset.text Field.text
  | .stack kind registers =>
    kind.name ++ condition ++ " " ++ Register.listText registers

end ArmAssembly
