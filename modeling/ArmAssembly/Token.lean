import ArmAssembly.Text.Numeral
import ArmAssembly.Text.Span

set_option autoImplicit false

/-! # Tokens

The words, numbers and marks that a source text is made of.
-/

namespace ArmAssembly

/-- The kinds of tokens. -/
inductive TokenKind where
  | word
  | number
  | hexNumber
  | comma
  | colon
  | dash
  | openBracket
  | closeBracket
  | equals
deriving DecidableEq

namespace TokenKind

/-- Every kind, in the order of declaration. -/
def all : List TokenKind :=
  [word, number, hexNumber, comma, colon, dash, openBracket, closeBracket, equals]

/-- The name of a kind in messages. -/
def text : TokenKind → String
  | word => "word"
  | number => "number"
  | hexNumber => "hexadecimal number"
  | comma => "','"
  | colon => "':'"
  | dash => "'-'"
  | openBracket => "'['"
  | closeBracket => "']'"
  | equals => "'='"

/-- The token is a number in either base. -/
def isNumeric (kind : TokenKind) : Bool :=
  kind = number || kind = hexNumber

end TokenKind

/-- A token. The mark `#` in front of a number belongs to its span but not to its lexeme. -/
structure Token where
  kind : TokenKind
  lexeme : String
  span : Span
deriving DecidableEq

namespace Token

/-- The token is the word `name`, in either case. -/
def isNamed (t : Token) (name : String) : Bool :=
  t.kind = .word && sameFolded t.lexeme name

/-- The digits of a number, without the `0x` of a hexadecimal one. -/
def digits (t : Token) : List Char :=
  if t.kind = .hexNumber then t.lexeme.toList.drop 2 else t.lexeme.toList

/-- The number that a numeric token stands for. -/
def value (t : Token) : Nat :=
  numeralValue (if t.kind = .hexNumber then 16 else 10) t.digits

end Token

end ArmAssembly
