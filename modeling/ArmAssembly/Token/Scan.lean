import ArmAssembly.Problem

set_option autoImplicit false

/-! # From text to tokens

`scan` cuts a text into tokens, blanks and comments, always taking the longest piece that
fits at the front of what is left. It stops at the first character that begins no piece.

A `#` directly before a digit marks the number that follows; before anything else it begins
a comment, which ends before the next line feed. A marked `0` with a letter `x` after it that
begins no hexadecimal number is passed over together with its mark, so that scanning goes on
at the `x`.
-/

namespace ArmAssembly

/-- The characters between tokens. -/
def isBlank (c : Char) : Bool :=
  c = ' ' || c = '\t' || c = '\r' || c = '\n' || c = '\x0c'

/-- The letter that turns a leading zero into the mark of base sixteen. -/
def isHexMark (c : Char) : Bool :=
  c = 'x' || c = 'X'

/-- The tokens that are one character long. -/
def mark? : Char → Option TokenKind
  | ',' => some .comma
  | ':' => some .colon
  | '-' => some .dash
  | '[' => some .openBracket
  | ']' => some .closeBracket
  | '=' => some .equals
  | _ => none

/-- The piece at the front of a text, with the number of characters that it takes after its
first one. -/
inductive Piece where
  | skipped (more : Nat)
  | token (kind : TokenKind) (more : Nat)
  | unknown
deriving DecidableEq

/-- How many characters at the front of `text` belong to the class `p`. -/
def leading (p : Char → Bool) (text : List Char) : Nat :=
  (text.takeWhile p).length

/-- `rest` begins with `x` and a hexadecimal digit, so that a zero before it begins a number
in base sixteen. -/
def hexFollows : List Char → Bool
  | x :: d :: _ => isHexMark x && isHexDigit d
  | _ => false

/-- The number whose first digit `d` stands before `rest`. -/
def numberAt (d : Char) (rest : List Char) : TokenKind × Nat :=
  if d = '0' && hexFollows rest then (.hexNumber, 1 + leading isHexDigit (rest.drop 1))
  else (.number, leading Char.isDigit rest)

/-- What a `#` before `rest` begins. -/
def markedPiece : List Char → Piece
  | d :: rest =>
    if d.isDigit then
      if d = '0' && (rest.head?.any isHexMark) && !hexFollows rest then .skipped 1
      else
        let (kind, more) := numberAt d rest
        .token kind (more + 1)
    else .skipped (leading (· ≠ '\n') (d :: rest))
  | [] => .skipped 0

/-- The piece that begins with the character `c` before `rest`. -/
def pieceAt (c : Char) (rest : List Char) : Piece :=
  if isBlank c then .skipped (leading isBlank rest)
  else if c = '#' then markedPiece rest
  else if c.isAlpha then .token .word (leading Char.isAlphanum rest)
  else if c.isDigit then
    let (kind, more) := numberAt c rest
    .token kind more
  else
    match mark? c with
    | some kind => .token kind 0
    | none => .unknown

/-- The lexeme of a token: its text, less the `#` in front of a number. -/
def lexemeOf (kind : TokenKind) (text : List Char) : String :=
  match text with
  | '#' :: digits => if kind.isNumeric then String.ofList digits else String.ofList text
  | _ => String.ofList text

/-- Scans `text`, which begins at byte `start` of the source, and adds its tokens to those
found before, the last of which comes first. -/
def scanFrom (start : Nat) (found : List Token) : List Char → Except Problem (List Token)
  | [] => .ok found.reverse
  | c :: rest =>
    match pieceAt c rest with
    | .skipped more =>
      scanFrom (start + byteLength (c :: rest.take more)) found (rest.drop more)
    | .token kind more =>
      let text := c :: rest.take more
      let stop := start + byteLength text
      scanFrom stop (⟨kind, lexemeOf kind text, ⟨start, stop⟩⟩ :: found) (rest.drop more)
    | .unknown => .error ⟨.unknownSymbol c, ⟨start, start + c.utf8Size⟩⟩
termination_by text => text.length
decreasing_by all_goals simp only [List.length_cons, List.length_drop]; omega

/-- The tokens of a source text. -/
def scan (source : List Char) : Except Problem (List Token) :=
  scanFrom 0 [] source

end ArmAssembly
