import ArmAssembly.Machine.Address
import ArmAssembly.Mnemonic
import ArmAssembly.Token

set_option autoImplicit false

/-! # What can be wrong with a program

Every problem has a cause and a span of the source text. The causes are of three stages: a
character that belongs to no token, tokens that do not form a statement or an operand that
does not fit its place, and labels that have no usable address. Causes are data; `message`
gives their wording.
-/

namespace ArmAssembly

/-! ## Statements -/

/-- What the reader of a statement was looking for. -/
inductive Expected where
  | operation
  | flagLetters
  | branchTarget
  | labelOrNumber
  | label
  | register
  | number
  | hexLiteral
  | comma
  | openBracket
  | closeBracket
  | equals
deriving DecidableEq

/-- The name of what was looked for. -/
def Expected.text : Expected → String
  | operation => "an instruction or directive"
  | flagLetters => "flag letters"
  | branchTarget => "a branch target"
  | labelOrNumber => "a label or a number"
  | label => "a label"
  | register => "a register"
  | number => "a number"
  | hexLiteral => "a hexadecimal literal"
  | comma => "','"
  | openBracket => "'['"
  | closeBracket => "']'"
  | equals => "'='"

/-- Tokens that do not form a statement. -/
inductive Malformed where
  /-- A token of one kind stands where something else is needed. -/
  | unexpected (expected : Expected) (kind : TokenKind) (lexeme : String)
  /-- The tokens end inside a statement. -/
  | endOfInput (expected : Expected)
  /-- The word is neither a mnemonic nor a directive. -/
  | unknownOperation (word : String)
  /-- The instruction has flags, but this is none of them. -/
  | badFlag (base : BaseName) (flag : Char) (accepted : String)
  /-- The mnemonic lacks the letter for the form of its last operand. -/
  | missingSuffix (word choices : String)
  /-- The mnemonic takes a number only. -/
  | immediateOnly (word : String)
  /-- The mnemonic has a suffix but takes none. -/
  | needlessSuffix (word : String)
  /-- The token is no register name. -/
  | notRegister (lexeme : String)
  /-- A literal of a `byte` directive has characters that are no hexadecimal digits. -/
  | notHexadecimal (digits : String)
deriving DecidableEq

/-- The wording of tokens that do not form a statement. -/
def Malformed.message : Malformed → String
  | unexpected expected kind lexeme =>
    s!"expected {expected.text} but found {kind.text} '{lexeme}'"
  | endOfInput expected => s!"expected {expected.text} but reached the end of the input"
  | unknownOperation word => s!"'{word}' is not a known instruction or directive"
  | badFlag base flag accepted =>
    s!"{base.text} does not accept the flag {flag} (it accepts {accepted})"
  | missingSuffix word choices => s!"'{word}' needs one of the addressing suffixes {choices}"
  | immediateOnly word => s!"'{word}' only accepts an immediate operand"
  | needlessSuffix word => s!"'{word}' does not take an addressing suffix"
  | notRegister lexeme => s!"expected a register (R0 to R15) but found '{lexeme}'"
  | notHexadecimal digits => s!"'{digits}' is not a sequence of hexadecimal digits"

/-! ## Operands -/

/-- The places that a number can take in an instruction or a directive. -/
inductive OperandPlace where
  | branchTarget
  | transferOffset
  | compareImmediate
  | moveImmediate
  | labelAddress
  | dataWord
deriving DecidableEq

namespace OperandPlace

/-- How many bits the place has. -/
def width : OperandPlace → Nat
  | branchTarget => 24
  | transferOffset => 12
  | compareImmediate => 12
  | moveImmediate => 16
  | labelAddress => 16
  | dataWord => 32

/-- The name of the place in messages. -/
def text : OperandPlace → String
  | branchTarget => "branch target"
  | transferOffset => "load/store offset"
  | compareImmediate => "compare immediate"
  | moveImmediate => "move immediate"
  | labelAddress => "label load address"
  | dataWord => "data word"

end OperandPlace

/-- Well-formed operands without an encoding. -/
inductive Unencodable where
  | tooWide (literal : String) (place : OperandPlace)
  | noSuchRegister (name : String)
  | noRotatedForm (literal : String)
  | oddDigitCount (literals : String)
deriving DecidableEq

/-- The wording of an operand without an encoding. -/
def Unencodable.message : Unencodable → String
  | tooWide literal place =>
    s!"{literal} does not fit into the {place.width}-bit {place.text} field"
  | noSuchRegister name => s!"{name} is not a register; registers are R0 to R15"
  | noRotatedForm literal =>
    s!"{literal} cannot be encoded as an 8-bit value rotated by an even number of bits"
  | oddDigitCount literals => s!"byte literal {literals} has an odd number of hex digits"

/-! ## Problems -/

/-- Why a program cannot be assembled. -/
inductive Cause where
  | unknownSymbol (symbol : Char)
  | malformed (cause : Malformed)
  | unencodable (cause : Unencodable)
  | undefinedLabel (name : String)
  | movedLabel (name : String) (first second : Address)
deriving DecidableEq

/-- A cause and the part of the source text that it concerns. -/
structure Problem where
  cause : Cause
  span : Span
deriving DecidableEq

/-- A problem with a whole token. -/
def Token.malformed (t : Token) (cause : Malformed) : Problem :=
  ⟨.malformed cause, t.span⟩

/-- The token has a form but no encoding. -/
def Token.unencodable (t : Token) (cause : Unencodable) : Problem :=
  ⟨.unencodable cause, t.span⟩

/-- The token stands where something else is needed. -/
def Token.unexpected (t : Token) (expected : Expected) : Problem :=
  t.malformed (.unexpected expected t.kind t.lexeme)

end ArmAssembly
