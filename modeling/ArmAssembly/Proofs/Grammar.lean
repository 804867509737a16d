import ArmAssembly.Proofs.RotatedBytes
import ArmAssembly.Proofs.Scanning
import ArmAssembly.Proofs.Statements
import Mathlib

set_option autoImplicit false

/-! # The language of programs

The programs that can be read form a language over tokens: statements are put together from
single tokens by union, product and star (`Grammar.program`). The grammar names no cursor, no
order of checks and no value of an operand, only which kinds, lexemes and numbers may stand
where. Reading accepts just the lists of this language
(`Pass.exists_run_eq_ok_iff_mem_program`): every phrase belongs to it, and every list in it is a
phrase of some item.
-/

namespace ArmAssembly

open scoped Computability

/-- Hexadecimal digits behind the letters `0x`. -/
def isHexLexeme : List Char → Bool
  | zero :: x :: digits =>
    zero = '0' && isHexMark x && digits.all isHexDigit && !digits.isEmpty
  | _ => false

/-- The lexeme has the form that the kind of the token asks for. -/
def Token.isShaped (t : Token) : Bool :=
  match t.kind with
  | .word => isWord t.lexeme.toList
  | .number => t.lexeme.toList.all Char.isDigit && !t.lexeme.toList.isEmpty
  | .hexNumber => isHexLexeme t.lexeme.toList
  | kind => t.lexeme.toList.map mark? = [some kind]

namespace Grammar

/-! ## Single tokens -/

/-- The lists of one token that has the property `p`. -/
def one (p : Token → Prop) : Language Token :=
  {taken | ∃ t, p t ∧ taken = [t]}

/-- One token of the given kind. -/
def ofKind (kind : TokenKind) : Language Token :=
  one fun t => t.kind = kind

/-- The word is the letter `R` in either case and a decimal number below sixteen. -/
def IsRegister (t : Token) : Prop :=
  t.kind = .word ∧ ∃ letter digits, t.lexeme.toList = letter :: digits ∧
    letter.toUpper = 'R' ∧ digits ≠ [] ∧ digits.all Char.isDigit = true ∧
    numeralValue 10 digits < 16

/-- The name of a register. -/
def register : Language Token := one IsRegister

/-- A number in either base whose value is below `bound`. -/
def numberBelow (bound : Nat) : Language Token :=
  one fun t => t.kind.isNumeric = true ∧ t.value < bound

/-- A number in either base that is a byte, turned by an even distance. -/
def constant : Language Token :=
  one fun t => t.kind.isNumeric = true ∧ ∃ b : RotatedByte, b.constant.toNat = t.value

/-! ## Operands -/

/-- One or more items with commas between them. -/
def listOf (item : Language Token) : Language Token :=
  item * (ofKind .comma * item)∗

/-- A dash and a word made of accepted letters in any order, number and case, or nothing. -/
def flags (accepted : String) : Language Token :=
  1 + ofKind .dash *
    one fun t => t.kind = .word ∧ ∀ c ∈ folded t.lexeme, c ∈ accepted.toList

/-- The last operand, whose form the suffix selects. -/
def last (suffix : Option Suffix) (number : Language Token) : Language Token :=
  match suffix with
  | some .immediate => number
  | some .register => register
  | _ => 0

/-- A register and a comma. -/
def registerThen : Language Token := register * ofKind .comma

/-- The operands of the mnemonic `m`. -/
def operands (m : Mnemonic) : Language Token :=
  match m.base with
  | .branch | .branchLink => numberBelow (2 ^ 24) + ofKind .word
  | .and | .orr | .add | .sub =>
    flags "S" * (registerThen * (registerThen * last m.suffix constant))
  | .compare => registerThen * last m.suffix (numberBelow (2 ^ 12))
  | .move | .moveWide =>
    match m.suffix with
    | none => 0
    | some .immediate => registerThen * numberBelow (2 ^ 16)
    | some .register => registerThen * register
    | some .label => registerThen * ofKind .word
  | .moveTop =>
    match m.suffix with
    | none | some .immediate => registerThen * numberBelow (2 ^ 16)
    | _ => 0
  | .load | .loadByte | .store =>
    flags "PUW" * (registerThen * (registerThen *
      last (some (m.suffix.getD .register)) (numberBelow (2 ^ 12))))
  | .push | .pop =>
    match m.suffix with
    | none => ofKind .openBracket * (listOf register * ofKind .closeBracket)
    | some _ => 0

/-! ## Statements

All statements but `byte` directives are put together from single tokens by union and product. In a
`byte` directive the digits of all literals, taken together, have to be even in number as well. -/

/-- How many hexadecimal digits there are, not counting the `0x` in front of them. -/
def hexDigits (taken : List Token) : Nat :=
  ((taken.filter (·.kind = .hexNumber)).flatMap Token.digits).length

/-- A `byte` directive: hexadecimal numbers with an even number of digits in all. -/
def byteDirective : Language Token :=
  {taken | taken ∈ one (·.isNamed "byte" = true) * (ofKind .equals * listOf (ofKind .hexNumber)) ∧
    hexDigits taken % 2 = 0}

/-- A `word` directive. -/
def wordDirective : Language Token :=
  one (·.isNamed "word" = true) * (ofKind .equals * listOf (numberBelow (2 ^ 32)))

/-- An instruction: a word that spells the mnemonic `m` and the operands of `m`. -/
def instruction : Language Token :=
  ⨆ m, one (fun t => t.kind = .word ∧ Mnemonic.ofWord? t.lexeme = some m) * operands m

/-- A directive or an instruction. -/
def operation : Language Token := byteDirective + wordDirective + instruction

/-- An operation with or without a label in front of it. -/
def statement : Language Token := (1 + ofKind .word * ofKind .colon) * operation

/-- A sequence of statements. -/
def program : Language Token := statement∗

/-! ## Products of single tokens -/

theorem mem_one {p : Token → Prop} {taken : List Token} :
    taken ∈ one p ↔ ∃ t, p t ∧ taken = [t] := Iff.rfl

theorem mem_one_mul {p : Token → Prop} {l : Language Token} {taken : List Token} :
    taken ∈ one p * l ↔ ∃ t rest, p t ∧ rest ∈ l ∧ taken = t :: rest := by
  rw [Language.mem_mul]
  constructor
  · rintro ⟨_, ⟨t, ht, rfl⟩, rest, hrest, rfl⟩
    exact ⟨t, rest, ht, hrest, rfl⟩
  · rintro ⟨t, rest, ht, hrest, rfl⟩
    exact ⟨[t], ⟨t, ht, rfl⟩, rest, hrest, rfl⟩

theorem isRegister_iff {t : Token} : IsRegister t ↔ ∃ r, t.register = .ok r := by
  simp only [Token.register_eq_ok_iff, IsRegister]
  constructor
  · rintro ⟨hword, letter, digits, hlexeme, hletter, hne, hdigits, hlt⟩
    exact ⟨⟨BitVec.ofNatLT _ hlt⟩, hword, letter, digits, hlexeme, hletter, hne, hdigits,
      BitVec.toNat_ofNatLT _ hlt⟩
  · rintro ⟨r, hword, letter, digits, hlexeme, hletter, hne, hdigits, hnumber⟩
    exact ⟨hword, letter, digits, hlexeme, hletter, hne, hdigits, hnumber ▸ r.number.isLt⟩

theorem isNumberIn_iff (place : OperandPlace) {t : Token} :
    (t.kind.isNumeric = true ∧ t.value < 2 ^ place.width) ↔
      ∃ bits, t.numberIn place = .ok bits := by
  simp only [Token.numberIn_eq_ok_iff]
  constructor
  · rintro ⟨hnumeric, hlt⟩
    exact ⟨BitVec.ofNatLT _ hlt, hnumeric, BitVec.toNat_ofNatLT _ hlt⟩
  · rintro ⟨bits, hnumeric, hvalue⟩
    exact ⟨hnumeric, hvalue ▸ bits.isLt⟩

theorem isConstant_iff {t : Token} :
    (t.kind.isNumeric = true ∧ ∃ b : RotatedByte, b.constant.toNat = t.value) ↔
      ∃ b, t.constant = .ok b := by
  simp only [Token.constant_eq_ok_iff]
  constructor
  · rintro ⟨hnumeric, b, hvalue⟩
    obtain ⟨found, hfound⟩ := Option.isSome_iff_exists.mp
      (RotatedByte.isSome_ofConstant?.mpr ⟨b, rfl⟩)
    exact ⟨found, hnumeric, b.constant, hvalue, hfound⟩
  · rintro ⟨found, hnumeric, n, hvalue, hfound⟩
    exact ⟨hnumeric, found, by rw [RotatedByte.constant_of_ofConstant? hfound, hvalue]⟩

/-! ## Parts of phrases belong to the language

The languages here are built from single tokens for which some value is read. What the value is
makes no difference, so each lemma is stated for any conversion that accepts the same tokens. -/

theorem mem_registerThen_mul {l : Language Token} {taken : List Token} :
    taken ∈ registerThen * l ↔
      ∃ t r comma rest, t.register = .ok r ∧ comma.kind = .comma ∧ rest ∈ l ∧
        taken = t :: comma :: rest := by
  simp only [registerThen, register, ofKind, mul_assoc, mem_one_mul, isRegister_iff]
  constructor
  · rintro ⟨t, _, ⟨r, hr⟩, ⟨comma, rest, hcomma, hrest, rfl⟩, rfl⟩
    exact ⟨t, r, comma, rest, hr, hcomma, hrest, rfl⟩
  · rintro ⟨t, r, comma, rest, hr, hcomma, hrest, rfl⟩
    exact ⟨t, comma :: rest, ⟨r, hr⟩, ⟨comma, rest, hcomma, hrest, rfl⟩, rfl⟩

theorem mem_flags {accepted : String} {taken : List Token} :
    taken ∈ flags accepted ↔ ∃ letters, FlagPhrase accepted taken letters := by
  simp only [flags, Language.mem_add, Language.mem_one, ofKind, mem_one_mul, mem_one]
  constructor
  · rintro (rfl | ⟨dash, _, hdash, ⟨letters, ⟨hword, hknown⟩, rfl⟩, rfl⟩)
    · exact ⟨[], .absent⟩
    · exact ⟨_, .present hdash hword hknown⟩
  · rintro ⟨letters, hphrase⟩
    cases hphrase with
    | absent => exact .inl rfl
    | present hdash hword hknown => exact .inr ⟨_, _, hdash, ⟨_, ⟨hword, hknown⟩, rfl⟩, rfl⟩

theorem mem_flags_mul {accepted : String} {l : Language Token} {taken : List Token} :
    taken ∈ flags accepted * l ↔
      ∃ u letters rest, FlagPhrase accepted u letters ∧ rest ∈ l ∧ taken = u ++ rest := by
  simp only [Language.mem_mul, mem_flags]
  constructor
  · rintro ⟨u, ⟨letters, hphrase⟩, rest, hrest, rfl⟩
    exact ⟨u, letters, rest, hphrase, hrest, rfl⟩
  · rintro ⟨u, letters, rest, hphrase, hrest, rfl⟩
    exact ⟨u, ⟨letters, hphrase⟩, rest, hrest, rfl⟩

section Converted

variable {α : Type} {convert : Token → Except Problem α} {p : Token → Prop}

theorem mem_last (hp : ∀ t, p t ↔ ∃ a, convert t = .ok a) {suffix : Option Suffix}
    {taken : List Token} :
    taken ∈ last suffix (one p) ↔ ∃ t value, LastPhrase suffix convert t value ∧ taken = [t] := by
  constructor
  · intro h
    unfold last at h
    split at h
    · obtain ⟨t, ht, rfl⟩ := h
      obtain ⟨a, ha⟩ := (hp t).mp ht
      exact ⟨t, _, .immediate rfl ha, rfl⟩
    · obtain ⟨t, ht, rfl⟩ := h
      obtain ⟨r, hr⟩ := isRegister_iff.mp ht
      exact ⟨t, _, .register rfl hr, rfl⟩
    · exact absurd h (Language.notMem_zero _)
  · rintro ⟨t, value, hphrase, rfl⟩
    cases hphrase with
    | immediate form number =>
        subst form
        exact ⟨t, (hp t).mpr ⟨_, number⟩, rfl⟩
    | register form source =>
        subst form
        exact ⟨t, isRegister_iff.mpr ⟨_, source⟩, rfl⟩

/-- The tail of a list is some number of items, each behind a comma. -/
theorem mem_rest (hp : ∀ t, p t ↔ ∃ a, convert t = .ok a) {taken : List Token} :
    taken ∈ (ofKind .comma * one p)∗ ↔ ∃ values, RestPhrase convert taken values := by
  constructor
  · intro h
    obtain ⟨parts, rfl, hparts⟩ := Language.mem_kstar.mp h
    clear h
    -- on the items of the tail, a comma in front of each
    induction parts with
    | nil => exact ⟨[], .done⟩
    | cons part parts ih =>
        obtain ⟨values, hrest⟩ := ih fun y hy => hparts y (List.mem_cons_of_mem _ hy)
        obtain ⟨comma, _, hcomma, ⟨t, ht, rfl⟩, rfl⟩ :=
          mem_one_mul.mp (hparts part List.mem_cons_self)
        obtain ⟨a, ha⟩ := (hp t).mp ht
        exact ⟨a :: values, .more hcomma ha hrest⟩
  · rintro ⟨values, hrest⟩
    induction hrest with
    | done => exact Language.nil_mem_kstar _
    | @more comma t a taken values separator item rest ih =>
        rw [← Language.one_add_self_mul_kstar_eq_kstar]
        refine (Language.mem_add _ _ _).mpr (.inr ?_)
        rw [ofKind, mul_assoc]
        refine mem_one_mul.mpr ⟨comma, _, separator, ?_, rfl⟩
        exact mem_one_mul.mpr ⟨t, _, (hp t).mpr ⟨a, item⟩, ih, rfl⟩

theorem mem_listOf (hp : ∀ t, p t ↔ ∃ a, convert t = .ok a) {taken : List Token} :
    taken ∈ listOf (one p) ↔ ∃ values, ListPhrase convert taken values := by
  rw [listOf, mem_one_mul]
  simp only [mem_rest hp]
  constructor
  · rintro ⟨t, taken, ht, ⟨values, hrest⟩, rfl⟩
    obtain ⟨a, ha⟩ := (hp t).mp ht
    exact ⟨_, .intro ha hrest⟩
  · rintro ⟨values, hphrase⟩
    cases hphrase with
    | intro item rest => exact ⟨_, _, (hp _).mpr ⟨_, item⟩, ⟨_, rest⟩, rfl⟩

end Converted

/-! ## Phrases belong to the language -/

theorem mem_branch {m : Mnemonic} {link : Bool} {taken : List Token} :
    taken ∈ numberBelow (2 ^ 24) + ofKind .word ↔ ∃ item, BranchPhrase m link taken item := by
  rw [Language.mem_add]
  constructor
  · rintro (⟨t, ht, rfl⟩ | ⟨t, ht, rfl⟩)
    · obtain ⟨bits, hbits⟩ := (isNumberIn_iff .branchTarget).mp ht
      exact ⟨_, .offset hbits⟩
    · exact ⟨_, .label ht⟩
  · rintro ⟨item, hphrase⟩
    cases hphrase with
    | offset hnumber => exact .inl ⟨_, (isNumberIn_iff .branchTarget).mpr ⟨_, hnumber⟩, rfl⟩
    | label hword => exact .inr ⟨_, hword, rfl⟩

theorem mem_arithmetic {m : Mnemonic} {operation : Arithmetic} {taken : List Token} :
    taken ∈ flags "S" * (registerThen * (registerThen * last m.suffix constant)) ↔
      ∃ item, ArithmeticPhrase m operation taken item := by
  simp only [mem_flags_mul, mem_registerThen_mul, constant, mem_last @isConstant_iff]
  constructor
  · rintro ⟨flags, letters, _, hflags, ⟨d, destination, comma, _, hd, hcomma,
      ⟨f, first, comma', _, hf, hcomma', ⟨s, second, hs, rfl⟩, rfl⟩, rfl⟩, rfl⟩
    exact ⟨_, .intro hflags hd hcomma hf hcomma' hs⟩
  · rintro ⟨_, hflags, hd, hcomma, hf, hcomma', hs⟩
    exact ⟨_, _, _, hflags, ⟨_, _, _, _, hd, hcomma, ⟨_, _, _, _, hf, hcomma', ⟨_, _, hs, rfl⟩,
      rfl⟩, rfl⟩, rfl⟩

theorem mem_compare {m : Mnemonic} {taken : List Token} :
    taken ∈ registerThen * last m.suffix (numberBelow (2 ^ 12)) ↔
      ∃ item, ComparePhrase m taken item := by
  have hnumber (t : Token) : (t.kind.isNumeric = true ∧ t.value < 2 ^ 12) ↔
      ∃ bits, t.numberIn .compareImmediate = .ok bits := isNumberIn_iff .compareImmediate
  simp only [mem_registerThen_mul, numberBelow, mem_last hnumber]
  constructor
  · rintro ⟨f, first, comma, _, hf, hcomma, ⟨s, second, hs, rfl⟩, rfl⟩
    exact ⟨_, .intro hf hcomma hs⟩
  · rintro ⟨_, hf, hcomma, hs⟩
    exact ⟨_, _, _, _, hf, hcomma, ⟨_, _, hs, rfl⟩, rfl⟩

theorem mem_move {m : Mnemonic} {taken : List Token} :
    (taken ∈ match m.suffix with
      | none => 0
      | some .immediate => registerThen * numberBelow (2 ^ 16)
      | some .register => registerThen * register
      | some .label => registerThen * ofKind .word) ↔
      ∃ item, MovePhrase m taken item := by
  constructor
  · intro h
    -- by the suffix: a number, a register or a word comes last
    split at h
    · exact absurd h (Language.notMem_zero _)
    · next hform =>
        obtain ⟨d, destination, comma, _, hd, hcomma, ⟨s, hs, rfl⟩, rfl⟩ :=
          mem_registerThen_mul.mp h
        obtain ⟨value, hvalue⟩ := (isNumberIn_iff .moveImmediate).mp hs
        exact ⟨_, .immediate hform hd hcomma hvalue⟩
    · next hform =>
        obtain ⟨d, destination, comma, _, hd, hcomma, ⟨s, hs, rfl⟩, rfl⟩ :=
          mem_registerThen_mul.mp h
        obtain ⟨source, hsource⟩ := isRegister_iff.mp hs
        exact ⟨_, .register hform hd hcomma hsource⟩
    · next hform =>
        obtain ⟨d, destination, comma, _, hd, hcomma, ⟨s, hs, rfl⟩, rfl⟩ :=
          mem_registerThen_mul.mp h
        exact ⟨_, .label hform hd hcomma hs⟩
  · rintro ⟨item, hphrase⟩
    cases hphrase with
    | immediate hform hd hcomma hvalue =>
        rw [hform]
        exact mem_registerThen_mul.mpr ⟨_, _, _, _, hd, hcomma,
          ⟨_, (isNumberIn_iff .moveImmediate).mpr ⟨_, hvalue⟩, rfl⟩, rfl⟩
    | register hform hd hcomma hsource =>
        rw [hform]
        exact mem_registerThen_mul.mpr ⟨_, _, _, _, hd, hcomma,
          ⟨_, isRegister_iff.mpr ⟨_, hsource⟩, rfl⟩, rfl⟩
    | label hform hd hcomma hword =>
        rw [hform]
        exact mem_registerThen_mul.mpr ⟨_, _, _, _, hd, hcomma, ⟨_, hword, rfl⟩, rfl⟩

theorem mem_moveTop {m : Mnemonic} {taken : List Token} :
    (taken ∈ match m.suffix with
      | none | some .immediate => registerThen * numberBelow (2 ^ 16)
      | _ => 0) ↔
      ∃ item, MoveTopPhrase m taken item := by
  have hread (hform : m.suffix = none ∨ m.suffix = some .immediate) :
      taken ∈ registerThen * numberBelow (2 ^ 16) → ∃ item, MoveTopPhrase m taken item := by
    intro h
    obtain ⟨d, destination, comma, _, hd, hcomma, ⟨s, hs, rfl⟩, rfl⟩ := mem_registerThen_mul.mp h
    obtain ⟨value, hvalue⟩ := (isNumberIn_iff .moveImmediate).mp hs
    exact ⟨_, .intro hform hd hcomma hvalue⟩
  constructor
  · intro h
    split at h
    · next hform => exact hread (.inl hform) h
    · next hform => exact hread (.inr hform) h
    · exact absurd h (Language.notMem_zero _)
  · rintro ⟨item, hform, hd, hcomma, hvalue⟩
    have hmem : _ ∈ registerThen * numberBelow (2 ^ 16) :=
      mem_registerThen_mul.mpr ⟨_, _, _, _, hd, hcomma,
        ⟨_, (isNumberIn_iff .moveImmediate).mpr ⟨_, hvalue⟩, rfl⟩, rfl⟩
    rcases hform with hform | hform
    · rw [hform]
      exact hmem
    · rw [hform]
      exact hmem

theorem mem_transfer {m : Mnemonic} {kind : TransferKind} {taken : List Token} :
    taken ∈ flags "PUW" * (registerThen * (registerThen *
      last (some (m.suffix.getD .register)) (numberBelow (2 ^ 12)))) ↔
      ∃ item, TransferPhrase m kind taken item := by
  have hnumber (t : Token) : (t.kind.isNumeric = true ∧ t.value < 2 ^ 12) ↔
      ∃ bits, t.numberIn .transferOffset = .ok bits := isNumberIn_iff .transferOffset
  simp only [mem_flags_mul, mem_registerThen_mul, numberBelow, mem_last hnumber]
  constructor
  · rintro ⟨flags, letters, _, hflags, ⟨d, destination, comma, _, hd, hcomma,
      ⟨b, base, comma', _, hb, hcomma', ⟨s, offset, hs, rfl⟩, rfl⟩, rfl⟩, rfl⟩
    exact ⟨_, .intro hflags hd hcomma hb hcomma' hs⟩
  · rintro ⟨_, hflags, hd, hcomma, hb, hcomma', hs⟩
    exact ⟨_, _, _, hflags, ⟨_, _, _, _, hd, hcomma, ⟨_, _, _, _, hb, hcomma', ⟨_, _, hs, rfl⟩,
      rfl⟩, rfl⟩, rfl⟩

theorem mem_stack {m : Mnemonic} {kind : StackKind} {taken : List Token} :
    (taken ∈ match m.suffix with
      | none => ofKind .openBracket * (listOf register * ofKind .closeBracket)
      | some _ => 0) ↔
      ∃ item, StackPhrase m kind taken item := by
  constructor
  · intro h
    split at h
    · next hform =>
        obtain ⟨opening, _, hopening, hrest, rfl⟩ := mem_one_mul.mp h
        obtain ⟨list, hlist, _, ⟨closing, hclosing, rfl⟩, rfl⟩ := Language.mem_mul.mp hrest
        obtain ⟨registers, hregisters⟩ := (mem_listOf @isRegister_iff).mp hlist
        exact ⟨_, .intro hform hopening hregisters hclosing⟩
    · exact absurd h (Language.notMem_zero _)
  · rintro ⟨item, hform, hopening, hregisters, hclosing⟩
    rw [hform]
    refine mem_one_mul.mpr ⟨_, _, hopening, ?_, rfl⟩
    exact Language.append_mem_mul ((mem_listOf @isRegister_iff).mpr ⟨_, hregisters⟩)
      ⟨_, hclosing, rfl⟩

theorem mem_operands {m : Mnemonic} {taken : List Token} :
    taken ∈ operands m ↔ ∃ item, OperandsPhrase m taken item := by
  unfold operands OperandsPhrase
  cases m.base with
  | branch | branchLink => exact mem_branch
  | and | orr | add | sub => exact mem_arithmetic
  | compare => exact mem_compare
  | move | moveWide => exact mem_move
  | moveTop => exact mem_moveTop
  | load | loadByte | store => exact mem_transfer
  | push | pop => exact mem_stack

/-! ### Directives

The grammar counts the digits of all literals of a directive, and the phrase asks that they can be
read as bytes. For tokens that are shaped these are the same, since then all digits are hexadecimal.
-/

theorem listPhrase_hexLiteral {taken literals : List Token}
    (h : ListPhrase Token.hexLiteral taken literals) :
    literals = taken.filter (·.kind = .hexNumber) := by
  have hrest {taken literals : List Token} (h : RestPhrase Token.hexLiteral taken literals) :
      literals = taken.filter (·.kind = .hexNumber) := by
    induction h with
    | done => rfl
    | more separator item rest ih =>
        obtain ⟨hhex, rfl⟩ := Token.hexLiteral_eq_ok_iff.mp item
        simp [hhex, separator, ih]
  cases h with
  | intro item rest =>
      obtain ⟨hhex, rfl⟩ := Token.hexLiteral_eq_ok_iff.mp item
      simp [hhex, hrest rest]

theorem isHexNumber_iff {t : Token} : t.kind = .hexNumber ↔ ∃ u, t.hexLiteral = .ok u := by
  simp [Token.hexLiteral_eq_ok_iff]

theorem isHexDigit_of_mem_digits {t : Token} (hshaped : t.isShaped = true)
    (hhex : t.kind = .hexNumber) : t.digits.all isHexDigit = true := by
  have hlexeme : isHexLexeme t.lexeme.toList = true := by
    rw [Token.isShaped, hhex] at hshaped
    exact hshaped
  rw [Token.digits, if_pos hhex]
  unfold isHexLexeme at hlexeme
  split at hlexeme
  · next zero x digits heq =>
      simp only [Bool.and_eq_true] at hlexeme
      rw [heq]
      exact hlexeme.1.2
  · cases hlexeme

/-- The digits of the literals of a directive, which the tokens in front of them do not
change. -/
theorem hexDigits_directive {head equals : Token} {taken literals : List Token}
    (hhead : head.kind = .word) (hequals : equals.kind = .equals)
    (hlist : ListPhrase Token.hexLiteral taken literals) :
    hexDigits (head :: equals :: taken) = (literals.flatMap Token.digits).length := by
  rw [listPhrase_hexLiteral hlist]
  simp [hexDigits, hhead, hequals]

/-- The digits of well-formed literals are hexadecimal. -/
theorem isHexDigit_of_literals {taken literals : List Token}
    (hlist : ListPhrase Token.hexLiteral taken literals)
    (hshaped : ∀ t ∈ taken, t.isShaped = true) :
    (literals.flatMap Token.digits).all isHexDigit = true := by
  rw [listPhrase_hexLiteral hlist, List.all_eq_true]
  intro digit hdigit
  obtain ⟨t, ht, hdigit⟩ := List.mem_flatMap.mp hdigit
  simp only [List.mem_filter, decide_eq_true_eq] at ht
  exact List.all_eq_true.mp (isHexDigit_of_mem_digits (hshaped t ht.1) ht.2) digit hdigit

/-- The literals of a directive are pairs of digits just if the number of digits is even. -/
theorem exists_contents_iff {taken literals : List Token}
    (hlist : ListPhrase Token.hexLiteral taken literals)
    (hshaped : ∀ t ∈ taken, t.isShaped = true) :
    (∃ contents, bytesOfDigits? (literals.flatMap Token.digits) = some contents) ↔
      (literals.flatMap Token.digits).length % 2 = 0 := by
  constructor
  · rintro ⟨contents, hcontents⟩
    exact even_of_bytesOfDigits hcontents
  · exact exists_bytesOfDigits (isHexDigit_of_literals hlist hshaped)

theorem kind_of_isNamed {t : Token} {name : String} (h : t.isNamed name = true) :
    t.kind = .word := by
  simp only [Token.isNamed, Bool.and_eq_true, decide_eq_true_eq] at h
  exact h.1

/-- The operations of the language are the phrases. -/
theorem mem_operation {tokens : List Token} (hshaped : ∀ t ∈ tokens, t.isShaped = true) :
    tokens ∈ operation ↔ ∃ head taken item, tokens = head :: taken ∧ head.kind = .word ∧
      OperationPhrase head taken item := by
  simp only [operation, Language.mem_add]
  constructor
  · rintro ((⟨hmem, heven⟩ | hmem) | hmem)
    -- a `byte` directive: the number of digits decides whether there are contents
    · obtain ⟨head, _, hname, hrest, rfl⟩ := mem_one_mul.mp hmem
      obtain ⟨equals, taken, hequals, hlist, rfl⟩ := mem_one_mul.mp hrest
      obtain ⟨literals, hlist⟩ := (mem_listOf @isHexNumber_iff).mp hlist
      have hhead := kind_of_isNamed hname
      rw [hexDigits_directive hhead hequals hlist] at heven
      obtain ⟨contents, hcontents⟩ := (exists_contents_iff hlist fun t ht =>
        hshaped t (List.mem_cons_of_mem _ (List.mem_cons_of_mem _ ht))).mpr heven
      exact ⟨head, _, _, rfl, hhead, .bytes hname hequals hlist hcontents⟩
    -- a `word` directive
    · obtain ⟨head, _, hname, hrest, rfl⟩ := mem_one_mul.mp hmem
      obtain ⟨equals, taken, hequals, hlist, rfl⟩ := mem_one_mul.mp hrest
      obtain ⟨contents, hlist⟩ := (mem_listOf fun t => isNumberIn_iff .dataWord).mp hlist
      exact ⟨head, _, _, rfl, kind_of_isNamed hname, .words hname hequals hlist⟩
    -- an instruction
    · obtain ⟨m, hmem⟩ := Language.mem_iSup.mp hmem
      obtain ⟨head, taken, ⟨hword, hname⟩, hoperands, rfl⟩ := mem_one_mul.mp hmem
      obtain ⟨item, hphrase⟩ := mem_operands.mp hoperands
      exact ⟨head, taken, item, rfl, hword, .instruction hname hphrase⟩
  · rintro ⟨head, _, item, rfl, hword, hphrase⟩
    cases hphrase with
    | bytes hname hequals hlist hcontents =>
        have heven := (exists_contents_iff hlist fun t ht =>
          hshaped t (List.mem_cons_of_mem _ (List.mem_cons_of_mem _ ht))).mp ⟨_, hcontents⟩
        rw [← hexDigits_directive hword hequals hlist] at heven
        refine .inl (.inl ⟨mem_one_mul.mpr ⟨_, _, hname, ?_, rfl⟩, heven⟩)
        exact mem_one_mul.mpr ⟨_, _, hequals, (mem_listOf @isHexNumber_iff).mpr ⟨_, hlist⟩, rfl⟩
    | words hname hequals hlist =>
        refine .inl (.inr (mem_one_mul.mpr ⟨_, _, hname, ?_, rfl⟩))
        exact mem_one_mul.mpr ⟨_, _, hequals,
          (mem_listOf fun t => isNumberIn_iff .dataWord).mpr ⟨_, hlist⟩, rfl⟩
    | instruction hname hoperands =>
        refine .inr (Language.mem_iSup.mpr ⟨_, mem_one_mul.mpr ⟨_, _, ⟨hword, hname⟩, ?_, rfl⟩⟩)
        exact mem_operands.mpr ⟨_, hoperands⟩

/-! ## Programs -/

theorem mem_statement {tokens : List Token} (hshaped : ∀ t ∈ tokens, t.isShaped = true) :
    tokens ∈ statement ↔ ∃ items, StatementPhrase tokens items := by
  unfold statement
  constructor
  · intro h
    obtain ⟨front, hfront, rest, hrest, rfl⟩ := Language.mem_mul.mp h
    have hshaped' : ∀ t ∈ rest, t.isShaped = true := fun t ht =>
      hshaped t (List.mem_append_right _ ht)
    obtain ⟨head, taken, item, rfl, hword, hphrase⟩ := (mem_operation hshaped').mp hrest
    rcases (Language.mem_add _ _ _).mp hfront with rfl | hlabel
    · exact ⟨_, .plain hword hphrase⟩
    · obtain ⟨name, _, hname, ⟨colon, hcolon, rfl⟩, rfl⟩ := mem_one_mul.mp hlabel
      exact ⟨_, .labelled hname hcolon hword hphrase⟩
  · rintro ⟨items, hphrase⟩
    cases hphrase with
    | plain hword hphrase =>
        exact Language.append_mem_mul (a := []) ((Language.mem_add _ _ _).mpr (.inl rfl))
          ((mem_operation hshaped).mpr ⟨_, _, _, rfl, hword, hphrase⟩)
    | @labelled name colon head taken item hname hcolon hword hphrase =>
        have hlabel : [name, colon] ∈ ofKind .word * ofKind .colon :=
          mem_one_mul.mpr ⟨name, [colon], hname, ⟨colon, hcolon, rfl⟩, rfl⟩
        have hshaped' : ∀ t ∈ head :: taken, t.isShaped = true := fun t ht =>
          hshaped t (List.mem_cons_of_mem _ (List.mem_cons_of_mem _ ht))
        exact Language.append_mem_mul (a := [name, colon])
          ((Language.mem_add _ _ _).mpr (.inr hlabel))
          ((mem_operation hshaped').mpr ⟨_, _, _, rfl, hword, hphrase⟩)

theorem mem_program {tokens : List Token} (hshaped : ∀ t ∈ tokens, t.isShaped = true) :
    tokens ∈ program ↔ ∃ items, ProgramPhrase tokens items := by
  unfold program
  constructor
  · intro h
    obtain ⟨parts, rfl, hparts⟩ := Language.mem_kstar.mp h
    clear h
    -- on the statements of the program
    induction parts with
    | nil => exact ⟨[], .nil⟩
    | cons part parts ih =>
        rw [List.flatten_cons] at hshaped ⊢
        obtain ⟨items, hstatement⟩ := (mem_statement fun t ht =>
          hshaped t (List.mem_append_left _ ht)).mp (hparts part List.mem_cons_self)
        obtain ⟨more, hrest⟩ := ih (fun y hy => hparts y (List.mem_cons_of_mem _ hy))
          fun t ht => hshaped t (List.mem_append_right _ ht)
        exact ⟨items ++ more, .cons hstatement hrest⟩
  · rintro ⟨items, hphrase⟩
    induction hphrase with
    | nil => exact Language.nil_mem_kstar _
    | cons statement rest ih =>
        rw [← Language.one_add_self_mul_kstar_eq_kstar]
        refine (Language.mem_add _ _ _).mpr (.inr ?_)
        refine Language.append_mem_mul ?_ (ih fun t ht => hshaped t (List.mem_append_right _ ht))
        exact (mem_statement fun t ht => hshaped t (List.mem_append_left _ ht)).mpr ⟨_, statement⟩

end Grammar

/-- **The programs that can be read are those of the grammar.** A pass that refuses no item
succeeds on a list of well-formed tokens just if the list is a concatenation of statements. -/
theorem Pass.exists_run_eq_ok_iff_mem_program {σ : Type} {pass : Pass σ}
    (accepts : ∀ i x, ∃ y, pass i x = .ok () y) {tokens : List Token}
    (hshaped : ∀ t ∈ tokens, t.isShaped = true) (initial : σ) :
    (∃ s, pass.run tokens initial = .ok () s) ↔ tokens ∈ Grammar.program := by
  rw [Pass.run, Pass.go_eq_replay, Pass.replay_eq_ok_iff accepts, Grammar.mem_program hshaped]
  constructor
  · intro hproblem
    exact ⟨_, Reading.ofTokens_finished_iff.mp ⟨hproblem, rfl⟩⟩
  · rintro ⟨items, hphrase⟩
    exact (Reading.ofTokens_finished_iff.mpr hphrase).1

/-- The tokens of `loop: BL loop`, where `loop` is a label and then the target of a branch. -/
def loopTokens : List Token :=
  [⟨.word, "loop", ⟨0, 4⟩⟩, ⟨.colon, ":", ⟨4, 5⟩⟩, ⟨.word, "BL", ⟨6, 8⟩⟩,
    ⟨.word, "loop", ⟨9, 13⟩⟩]

theorem Pass.run_loopTokens :
    (∀ t ∈ loopTokens, t.isShaped = true) ∧
      ∃ s, Transcript.pass.run loopTokens .empty = .ok () s := by
  have hshaped : ∀ t ∈ loopTokens, t.isShaped = true := by decide
  have accepts (i : Located Item) (t : Transcript) : ∃ u, Transcript.pass i t = .ok () u :=
    ⟨_, rfl⟩
  have hphrase : ProgramPhrase (loopTokens ++ []) _ :=
    .cons (.labelled rfl rfl rfl
      (.instruction (m := ⟨.branchLink, .always, none⟩) (by decide) (.label rfl))) .nil
  exact ⟨hshaped, (Pass.exists_run_eq_ok_iff_mem_program accepts hshaped Transcript.empty).mpr
    ((Grammar.mem_program hshaped).mpr ⟨_, hphrase⟩)⟩

end ArmAssembly
