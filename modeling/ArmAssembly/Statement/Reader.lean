import ArmAssembly.Statement.Operand
import ArmAssembly.Token.Cursor

set_option autoImplicit false

/-! # The grammar of statements

    statement   = [word ":"] operation
    operation   = "byte" "=" hexnumber {"," hexnumber}
                | "word" "=" number {"," number}
                | mnemonic operands

A `Reader` takes tokens from a cursor. It leaves the cursor behind the last token that it
looked at, also where it fails, and it never goes back. The mnemonic decides what operands
follow; which suffixes it takes is checked where the operand stands that the suffix selects.
-/

namespace ArmAssembly

/-- Reads tokens from a cursor. -/
abbrev Reader : Type → Type := EStateM Problem Cursor

namespace Reader

/-! ## Single tokens -/

/-- Ends reading with a problem. -/
def fail {α : Type} (problem : Problem) : Reader α :=
  fun c => .error problem c

/-- The result of a conversion. -/
def ofExcept {α : Type} (result : Except Problem α) : Reader α :=
  match result with
  | .ok a => pure a
  | .error problem => fail problem

/-- The tokens end where `expected` is needed. -/
def endOfInput (c : Cursor) (expected : Expected) : Problem :=
  ⟨.malformed (.endOfInput expected), .point c.lastStop⟩

/-- The next token, which is looked for as `expected`. -/
def token (expected : Expected) : Reader Token := fun c =>
  match c.after with
  | [] => .error (endOfInput c expected) c
  | t :: rest => .ok t ⟨t :: c.before, rest⟩

/-- The next token, which has to be of the given kind. -/
def kind (kind : TokenKind) (expected : Expected) : Reader Token := do
  let t ← token expected
  if t.kind = kind then return t else fail (t.unexpected expected)

/-- A comma. -/
def comma : Reader Unit := do
  let _ ← kind .comma .comma

/-- A register. -/
def register : Reader Register := do
  let t ← token .register
  ofExcept t.register

/-- A number. -/
def number : Reader Token := do
  let t ← token .number
  ofExcept t.numeric

/-- A number in the place `place`. -/
def field (place : OperandPlace) : Reader (BitVec place.width) := do
  let t ← number
  ofExcept (t.field place)

/-- A label that is used. -/
def label : Reader (Located String) := do
  let t ← kind .word .label
  return ⟨t.lexeme, t.span⟩

/-! ## Groups of tokens -/

/-- The rest of a list whose last item so far is the head of `found`: as long as a comma
follows, a comma and one more token. -/
def listRest {α : Type} (expected : Expected) (convert : Token → Except Problem α)
    (found : List α) (before : List Token) :
    List Token → EStateM.Result Problem Cursor (List α)
  | [] => .ok found.reverse ⟨before, []⟩
  | [t] =>
    if t.kind = .comma then
      let c : Cursor := ⟨t :: before, []⟩
      .error (endOfInput c expected) c
    else .ok found.reverse ⟨before, [t]⟩
  | t :: item :: rest =>
    if t.kind = .comma then
      match convert item with
      | .ok a => listRest expected convert (a :: found) (item :: t :: before) rest
      | .error problem => .error problem ⟨item :: t :: before, rest⟩
    else .ok found.reverse ⟨before, t :: item :: rest⟩

/-- One or more tokens with commas between them. -/
def list {α : Type} (expected : Expected) (convert : Token → Except Problem α) :
    Reader (List α) := do
  let t ← token expected
  let first ← ofExcept (convert t)
  fun c => listRest expected convert [first] c.before c.after

/-- The flag letters after a dash, in capitals, or none if there is no dash. Every letter has
to be one that the instruction accepts. -/
def flags (base : BaseName) (accepted : String) : Reader (List Char) := do
  let c ← get
  if c.nextIs .dash then
    let _ ← token .flagLetters
    let letters ← kind .word .flagLetters
    let capitals := folded letters.lexeme
    match capitals.find? (!accepted.toList.contains ·) with
    | some flag => fail (letters.malformed (.badFlag base flag accepted))
    | none => return capitals
  else return []

/-- The last operand of an instruction that takes a number or a register. The missing suffix
of `head` is a problem only here, after the other operands. -/
def operand {α : Type} (head : Token) (suffix : Option Suffix) (number : Reader α) :
    Reader (Operand α) := do
  match suffix with
  | some .immediate => return .immediate (← number)
  | some .register => return .register (← register)
  | _ => fail (head.malformed (.missingSuffix head.lexeme "i or r"))

/-- The part of the text from `head` to the last token that was read. -/
def spanFrom (head : Token) : Reader Span := do
  let c ← get
  return ⟨head.span.start, c.lastStop⟩

/-! ## Operations -/

/-- The target of a branch: a label if the operand is a word, whatever the suffix says. -/
def branch (m : Mnemonic) (link : Bool) : Reader Item := do
  let t ← token .branchTarget
  if t.kind.isNumeric then
    let field ← ofExcept (t.field .branchTarget)
    return .branch m.condition link (.offset field)
  else if t.kind = .word then
    return .branch m.condition link (.label ⟨t.lexeme, t.span⟩)
  else fail (t.unexpected .labelOrNumber)

/-- Flags, two registers and a number or a register. -/
def arithmetic (head : Token) (m : Mnemonic) (operation : Arithmetic) : Reader Item := do
  let letters ← flags m.base "S"
  let destination ← register
  comma
  let first ← register
  comma
  let second ← operand head m.suffix (do ofExcept (← number).rotatedByte)
  return .instruction
    ⟨m.condition, .arithmetic operation (letters.contains 'S') destination first second⟩

/-- A register and a number or a register. -/
def compare (head : Token) (m : Mnemonic) : Reader Item := do
  let first ← register
  comma
  let second ← operand head m.suffix (field .compareImmediate)
  return .instruction ⟨m.condition, .compare first second⟩

/-- A register and a number, a register or a label. -/
def move (head : Token) (m : Mnemonic) : Reader Item := do
  match m.suffix with
  | none => fail (head.malformed (.missingSuffix head.lexeme "i, r or l"))
  | some suffix =>
    let destination ← register
    comma
    match suffix with
    | .immediate =>
      let value ← field .moveImmediate
      return .instruction ⟨m.condition, .moveWide .bottom destination value⟩
    | .register =>
      let source ← register
      return .instruction ⟨m.condition, .moveRegister destination source⟩
    | .label =>
      let name ← label
      return .loadLabel m.condition destination name

/-- A register and a number. -/
def moveTop (head : Token) (m : Mnemonic) : Reader Item := do
  if m.suffix = none || m.suffix = some .immediate then
    let destination ← register
    comma
    let value ← field .moveImmediate
    return .instruction ⟨m.condition, .moveWide .top destination value⟩
  else fail (head.malformed (.immediateOnly head.lexeme))

/-- Flags, two registers and a number or a register; without a suffix, a register. -/
def transfer (head : Token) (m : Mnemonic) (kind : TransferKind) : Reader Item := do
  let letters ← flags m.base "PUW"
  let indexing : Indexing :=
    ⟨letters.contains 'P', letters.contains 'U', letters.contains 'W'⟩
  let destination ← register
  comma
  let base ← register
  comma
  let offset ← operand head (some (m.suffix.getD .register)) (field .transferOffset)
  return .instruction ⟨m.condition, .transfer kind indexing destination base offset⟩

/-- One or more registers in brackets. -/
def stack (head : Token) (m : Mnemonic) (stackKind : StackKind) : Reader Item := do
  if m.suffix.isSome then fail (head.malformed (.needlessSuffix head.lexeme))
  else
    let _ ← kind .openBracket .openBracket
    let registers ← list .register Token.register
    let _ ← kind .closeBracket .closeBracket
    return .instruction ⟨m.condition, .stack stackKind registers⟩

/-- The operands that follow the mnemonic `m`, which stands in the token `head`. -/
def operands (head : Token) (m : Mnemonic) : Reader Item :=
  match m.base with
  | .branch => branch m false
  | .branchLink => branch m true
  | .and => arithmetic head m .and
  | .orr => arithmetic head m .orr
  | .add => arithmetic head m .add
  | .sub => arithmetic head m .sub
  | .compare => compare head m
  | .move => move head m
  | .moveWide => move head m
  | .moveTop => moveTop head m
  | .load => transfer head m .load
  | .loadByte => transfer head m .loadByte
  | .store => transfer head m .store
  | .push => stack head m .push
  | .pop => stack head m .pop

/-- The literals of a `byte` directive. -/
def bytes (head : Token) : Reader Item := do
  let _ ← kind .equals .equals
  let literals ← list .hexLiteral Token.hexLiteral
  let span ← spanFrom head
  let contents ← ofExcept (bytesOfLiterals literals span)
  return .data (.bytes contents)

/-- The numbers of a `word` directive. -/
def words : Reader Item := do
  let _ ← kind .equals .equals
  let contents ← list .number Token.dataWord
  return .data (.words contents)

/-- What follows the first word of an operation. -/
def afterHead (head : Token) : Reader Item :=
  if head.isNamed "byte" then bytes head
  else if head.isNamed "word" then words
  else
    match Mnemonic.ofWord? head.lexeme with
    | some m => operands head m
    | none => fail (head.malformed (.unknownOperation head.lexeme))

/-- One operation. -/
def operation : Reader (Located Item) := do
  let head ← kind .word .operation
  let item ← afterHead head
  let span ← spanFrom head
  return ⟨item, span⟩

end Reader

/-- A label declaration, if one comes next, and the cursor behind it. -/
def Cursor.declaration? (c : Cursor) : Option (Located Item × Cursor) :=
  match c.after with
  | name :: colon :: rest =>
    if name.kind = .word && colon.kind = .colon then
      some (⟨.label name.lexeme, name.span⟩, ⟨colon :: name :: c.before, rest⟩)
    else none
  | _ => none

end ArmAssembly
