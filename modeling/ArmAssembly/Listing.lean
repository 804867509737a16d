import ArmAssembly.Machine.Disassembly
import ArmAssembly.Statement
import ArmAssembly.Symbols
import ArmAssembly.Text.Numeral

set_option autoImplicit false

/-! # Listings

A listing shows what an assembled program is made of: the symbol table, then one entry for
each label, instruction and block of data. Entries show the address, the word of an
instruction, the statement as it was written and what was made of it.
-/

namespace ArmAssembly

/-- A part of an assembled program. -/
inductive Entry where
  | label (address : Address) (name : String)
  | instruction (address : Address) (i : Instruction) (word : BitVec 32) (span : Span)
  | data (address : Address) (block : Block) (span : Span)
deriving DecidableEq

namespace Entry

/-- The address at which an entry stands. -/
def address : Entry → Address
  | label a _ => a
  | instruction a _ _ _ => a
  | data a _ _ => a

/-- How many addresses an entry takes. -/
def units : Entry → Nat
  | label _ _ => 0
  | instruction _ _ _ _ => 1
  | data _ block _ => block.units

/-- The bytes of an entry in the image. -/
def image : Entry → List UInt8
  | label _ _ => []
  | instruction _ _ word _ => littleEndian word
  | data _ block _ => block.image

/-- A statement as it was written, without white space around it. -/
def written (source : List Char) (span : Span) : String :=
  String.ofList (trimmed (span.text source))

/-- The line of an entry. -/
def text (source : List Char) : Entry → String
  | label a name => a.hex ++ "          " ++ name ++ ":"
  | instruction a i word span =>
    a.hex ++ "  " ++ wordText word ++ "  " ++ padRight 30 (written source span) ++ " ; " ++ i.text
  | data a block span =>
    a.hex ++ "  " ++ padRight 40 (written source span) ++ " ; " ++ block.text

end Entry

/-- The listing of a program with the given labels and entries. -/
def listing (source : List Char) (symbols : Symbols) (entries : List Entry) : String :=
  "Symbol Table:\n" ++ symbols.text ++ "\nProgram:\n"
    ++ String.join (entries.map fun entry => entry.text source ++ "\n")

end ArmAssembly
