import ArmAssembly.Machine.Condition

set_option autoImplicit false

/-! # Mnemonics

The word that opens an instruction is made of a base name, a condition (or none, for
`always`) and a letter for the form of the last operand (or none). Base names run into each
other: `BLE` is `B` under `LE`, while `BLEQ` is `BL` under `EQ`. Of all ways to take a word
apart the one with the longest base name is meant.
-/

namespace ArmAssembly

/-- The base names of instructions. -/
inductive BaseName where
  | branch
  | branchLink
  | and
  | orr
  | add
  | sub
  | compare
  | move
  | moveWide
  | moveTop
  | load
  | loadByte
  | store
  | push
  | pop
deriving DecidableEq

namespace BaseName

/-- A base name as it is spelled. -/
def text : BaseName → String
  | branch => "B"
  | branchLink => "BL"
  | and => "AND"
  | orr => "ORR"
  | add => "ADD"
  | sub => "SUB"
  | compare => "CMP"
  | move => "MOV"
  | moveWide => "MOVW"
  | moveTop => "MOVT"
  | load => "LDR"
  | loadByte => "LDRB"
  | store => "STR"
  | push => "PUSH"
  | pop => "POP"

/-- All base names, longer spellings before shorter ones. -/
def longestFirst : List BaseName :=
  [moveWide, moveTop, loadByte, push, and, orr, add, sub, compare, move, load, store, pop,
    branchLink, branch]

end BaseName

/-- The letter after the condition, which tells the form of the last operand. -/
inductive Suffix where
  | immediate
  | register
  | label
deriving DecidableEq

/-- The form that a capital letter selects. -/
def Suffix.ofLetter? : Char → Option Suffix
  | 'I' => some .immediate
  | 'R' => some .register
  | 'L' => some .label
  | _ => none

/-- An instruction word, taken apart. -/
structure Mnemonic where
  base : BaseName
  condition : Condition
  suffix : Option Suffix
deriving DecidableEq

namespace Mnemonic

/-- Reads what follows the base name, in capitals: a condition or none, then a suffix or
none. -/
def ending? : List Char → Option (Condition × Option Suffix)
  | [] => some (.always, none)
  | [s] => (Suffix.ofLetter? s).map fun suffix => (.always, some suffix)
  | [c, d] => (Condition.ofSuffix? [c, d]).map fun condition => (condition, none)
  | [c, d, s] => do
    let condition ← Condition.ofSuffix? [c, d]
    let suffix ← Suffix.ofLetter? s
    return (condition, some suffix)
  | _ => none

/-- Reads a word in capitals as an instruction with the base name `base`. -/
def withBase? (capitals : List Char) (base : BaseName) : Option Mnemonic :=
  if base.text.toList.isPrefixOf capitals then
    (ending? (capitals.drop base.text.length)).map fun (condition, suffix) =>
      ⟨base, condition, suffix⟩
  else none

/-- Takes an instruction word apart, in either case. -/
def ofWord? (word : String) : Option Mnemonic :=
  BaseName.longestFirst.findSome? (withBase? (folded word))

end Mnemonic

end ArmAssembly
