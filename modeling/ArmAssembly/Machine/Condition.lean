import ArmAssembly.Text.Numeral

set_option autoImplicit false

/-! # Conditions

Every instruction carries a condition, which says under which flags it runs. A condition has
a two-letter suffix in assembly source and four bits in an instruction word.
-/

namespace ArmAssembly

/-- When an instruction runs. -/
inductive Condition where
  | equal
  | notEqual
  | greaterOrEqual
  | less
  | greater
  | lessOrEqual
  | always
deriving DecidableEq

namespace Condition

/-- Every condition, in the order of declaration. -/
def all : List Condition :=
  [equal, notEqual, greaterOrEqual, less, greater, lessOrEqual, always]

/-- The condition in the top four bits of an instruction word. -/
def nibble : Condition → BitVec 4
  | equal => 0x0
  | notEqual => 0x1
  | greaterOrEqual => 0xA
  | less => 0xB
  | greater => 0xC
  | lessOrEqual => 0xD
  | always => 0xE

/-- The two letters that select a condition. -/
def suffix : Condition → String
  | equal => "EQ"
  | notEqual => "NE"
  | greaterOrEqual => "GE"
  | less => "LT"
  | greater => "GT"
  | lessOrEqual => "LE"
  | always => "AL"

/-- The condition that two letters select, in either case. -/
def ofSuffix? (letters : List Char) : Option Condition :=
  all.find? fun condition => folded condition.suffix == letters.map Char.toUpper

/-- The suffix as disassembly writes it: `always` goes without. -/
def text : Condition → String
  | always => ""
  | condition => condition.suffix

end Condition

end ArmAssembly
