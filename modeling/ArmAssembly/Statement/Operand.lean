import ArmAssembly.Problem
import ArmAssembly.Statement

set_option autoImplicit false

/-! # Operands

The reading of single tokens as registers, numbers and bytes. A number is taken at its full
value, however many digits it has, and then has to fit into its place.
-/

namespace ArmAssembly

namespace Token

/-- A register: the letter `R` in either case and the register's number. -/
def register (t : Token) : Except Problem Register :=
  match t.lexeme.toList with
  | r :: d :: ds =>
    if t.kind = .word && r.toUpper = 'R' && (d :: ds).all Char.isDigit then
      match Field.ofNat? 4 (numeralValue 10 (d :: ds)) with
      | some number => .ok ⟨number⟩
      | none => .error (t.unencodable (.noSuchRegister t.lexeme))
    else .error (t.malformed (.notRegister t.lexeme))
  | _ => .error (t.malformed (.notRegister t.lexeme))

/-- The token, if it is a number. -/
def numeric (t : Token) : Except Problem Token :=
  if t.kind.isNumeric then .ok t else .error (t.unexpected .number)

/-- The token, if it is a hexadecimal number. -/
def hexLiteral (t : Token) : Except Problem Token :=
  if t.kind = .hexNumber then .ok t else .error (t.unexpected .hexLiteral)

/-- The value of a numeric token in the place `place`. -/
def field (t : Token) (place : OperandPlace) : Except Problem (BitVec place.width) :=
  match Field.ofNat? place.width t.value with
  | some bits => .ok bits
  | none => .error (t.unencodable (.tooWide t.lexeme place))

/-- The value of a numeric token as a rotated byte. -/
def rotatedByte (t : Token) : Except Problem RotatedByte :=
  match (Field.ofNat? 32 t.value).bind RotatedByte.ofConstant? with
  | some constant => .ok constant
  | none => .error (t.unencodable (.noRotatedForm t.lexeme))

/-- One word of data. -/
def dataWord (t : Token) : Except Problem (BitVec 32) := do
  let number ← t.numeric
  number.field .dataWord

end Token

/-- Reads digits two by two, most significant first. -/
def bytesOfDigits? : List Char → Option (List UInt8)
  | [] => some []
  | [_] => none
  | high :: low :: digits =>
    if isHexDigit high && isHexDigit low then
      (bytesOfDigits? digits).map (UInt8.ofNat (numeralValue 16 [high, low]) :: ·)
    else none

/-- The bytes of a `byte` directive that takes up `span`. The digits of all literals are
joined before they are taken two by two, so a byte may begin in one literal and end in the
next. -/
def bytesOfLiterals (literals : List Token) (span : Span) : Except Problem (List UInt8) :=
  let digits := literals.flatMap Token.digits
  if digits.length % 2 = 1 then
    .error ⟨.unencodable (.oddDigitCount (", ".intercalate (literals.map Token.lexeme))), span⟩
  else
    match bytesOfDigits? digits with
    | some bytes => .ok bytes
    | none => .error ⟨.malformed (.notHexadecimal (String.ofList digits)), span⟩

end ArmAssembly
