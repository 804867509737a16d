import ArmAssembly.Machine.Condition
import ArmAssembly.Machine.RotatedByte

set_option autoImplicit false

/-! # Instructions

An instruction is a condition and an action, all of whose operands are numbers and registers.
The size of a number is part of its type, so that every instruction has an encoding.

The registers are the general-purpose ones, `R0` to `R15`, and the lists of them that `PUSH` and
`POP` take. A list keeps the order in which it was written; its mask has one bit for each register
in it and so knows neither order nor repetition.
-/

namespace ArmAssembly

/-! ## Registers -/

/-- A general-purpose register. -/
structure Register where
  number : BitVec 4
deriving DecidableEq

namespace Register

/-- The register's name. -/
def text (r : Register) : String :=
  s!"R{r.number.toNat}"

/-- The bit that stands for the register in the mask of a list. -/
def maskBit (r : Register) : BitVec 16 :=
  1#16 <<< r.number.toNat

/-- Bit `n` is set when register `n` is in the list. -/
def mask (registers : List Register) : BitVec 16 :=
  registers.foldl (fun bits r => bits ||| r.maskBit) 0

/-- A list of registers as an operand. -/
def listText (registers : List Register) : String :=
  "[" ++ ", ".intercalate (registers.map text) ++ "]"

end Register

/-! ## Instructions -/

/-- The last operand of an instruction: a number of type `α`, or a register. -/
inductive Operand (α : Type) where
  | immediate (value : α)
  | register (source : Register)
deriving DecidableEq

/-- The arithmetic and logical operations. -/
inductive Arithmetic where
  | and
  | sub
  | add
  | orr
deriving DecidableEq

/-- Which half of a register a 16-bit move writes. -/
inductive Half where
  | bottom
  | top
deriving DecidableEq

/-- What a transfer does with memory. -/
inductive TransferKind where
  | store
  | load
  | loadByte
deriving DecidableEq

/-- How a transfer forms its address. With no flag the offset is subtracted after the
transfer and the base register stays as it is. -/
structure Indexing where
  /-- `P`: the offset counts before the transfer. -/
  before : Bool
  /-- `U`: the offset is added. -/
  upward : Bool
  /-- `W`: the base register takes the address that was formed. -/
  writeBack : Bool
deriving DecidableEq

/-- What a stack instruction does with its registers. -/
inductive StackKind where
  | push
  | pop
deriving DecidableEq

/-- What an instruction does when its condition holds. -/
inductive Action where
  | branch (link : Bool) (offset : BitVec 24)
  | arithmetic (operation : Arithmetic) (setFlags : Bool) (destination first : Register)
      (second : Operand RotatedByte)
  | compare (first : Register) (second : Operand (BitVec 12))
  | moveWide (half : Half) (destination : Register) (value : BitVec 16)
  | moveRegister (destination source : Register)
  | transfer (kind : TransferKind) (indexing : Indexing) (destination base : Register)
      (offset : Operand (BitVec 12))
  | stack (kind : StackKind) (registers : List Register)
deriving DecidableEq

/-- An instruction: an action and the condition under which it is taken. -/
structure Instruction where
  condition : Condition
  action : Action
deriving DecidableEq

end ArmAssembly
