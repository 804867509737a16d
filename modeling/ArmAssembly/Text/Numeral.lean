set_option autoImplicit false

/-! # Numerals and columns

Numbers are written in base ten and in base sixteen, and read in both. A numeral is a list
of digits with the most significant one first; `numeralValue` reads it in either base. Text
that stands in columns is padded by counting characters, and what was written around it is taken
off first: the characters with the Unicode property White_Space, at both ends.

Letters are folded to upper case wherever case does not matter; only the ASCII letters have
two cases.
-/

namespace ArmAssembly

/-! ## Columns -/

/-- Fills `s` up to `width` characters on the left. -/
def padLeft (width : Nat) (fill : Char) (s : String) : String :=
  String.ofList (s.toList.leftpad width fill)

/-- Fills `s` with blanks up to `width` characters on the right. -/
def padRight (width : Nat) (s : String) : String :=
  String.ofList (s.toList.rightpad width ' ')

/-- The character has the Unicode property White_Space. -/
def isWhiteSpace (c : Char) : Bool :=
  let n := c.toNat
  (9 ≤ n && n ≤ 13) || n == 0x20 || n == 0x85 || n == 0xA0 || n == 0x1680
    || (0x2000 ≤ n && n ≤ 0x200A) || n == 0x2028 || n == 0x2029 || n == 0x202F
    || n == 0x205F || n == 0x3000

/-- The text without the white space at its ends. -/
def trimmed (text : List Char) : List Char :=
  ((text.dropWhile isWhiteSpace).reverse.dropWhile isWhiteSpace).reverse

/-! ## Writing -/

/-- The numeral of `n` in base sixteen with the digits `A` to `F`. -/
def upperHex (n : Nat) : String :=
  String.ofList ((Nat.toDigits 16 n).map Char.toUpper)

/-- The numeral of `n` in base sixteen with the digits `a` to `f`. -/
def lowerHex (n : Nat) : String :=
  String.ofList (Nat.toDigits 16 n)

/-- `n` in base sixteen with at least `width` digits. -/
def paddedHex (width n : Nat) : String :=
  padLeft width '0' (upperHex n)

/-- A byte as two hexadecimal digits. -/
def byteHex (b : UInt8) : String :=
  paddedHex 2 b.toNat

/-! ## Reading -/

/-- `c` is one of the sixteen hexadecimal digits, in either case. -/
def isHexDigit (c : Char) : Bool :=
  c.isDigit || ('A' ≤ c && c ≤ 'F') || ('a' ≤ c && c ≤ 'f')

/-- The value of a digit; letters count from ten in either case. -/
def digitValue (c : Char) : Nat :=
  if c.isDigit then c.toNat - '0'.toNat else c.toUpper.toNat - 'A'.toNat + 10

/-- The number that a list of digits stands for in base `base`. -/
def numeralValue (base : Nat) (digits : List Char) : Nat :=
  digits.foldl (fun value digit => base * value + digitValue digit) 0

/-! ## Case -/

/-- The characters of `s` with ASCII letters in upper case. -/
def folded (s : String) : List Char :=
  s.toList.map Char.toUpper

/-- `s` and `t` differ at most in the case of ASCII letters. -/
def sameFolded (s t : String) : Bool :=
  folded s == folded t

end ArmAssembly
