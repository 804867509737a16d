import ArmAssembly.Mnemonic
import ArmAssembly.Statement.Operand

set_option autoImplicit false

/-! # What single tokens stand for

A token is taken as a register, a number in its place or a constant just when its kind and its
lexeme say so; the value that it stands for is then the one that its digits spell. The digits of
a `byte` directive are taken just when they are hexadecimal and even in number.
-/

namespace ArmAssembly

theorem Field.ofNat?_eq_some_iff {w n : Nat} {bits : BitVec w} :
    Field.ofNat? w n = some bits ↔ bits.toNat = n := by
  unfold Field.ofNat?
  constructor
  · intro h
    split at h
    · next hlt =>
        cases h
        exact BitVec.toNat_ofNatLT _ hlt
    · cases h
  · rintro rfl
    have hlt : bits.toNat < Nat.pow 2 w := bits.isLt
    rw [dif_pos hlt]
    exact congrArg some (BitVec.eq_of_toNat_eq (BitVec.toNat_ofNatLT _ bits.isLt))

namespace Token

/-- The number of a token in the place `place`. -/
def numberIn (place : OperandPlace) (t : Token) : Except Problem (BitVec place.width) :=
  t.numeric.bind (·.field place)

/-- The number of a token as a rotated byte. -/
def constant (t : Token) : Except Problem RotatedByte :=
  t.numeric.bind (·.rotatedByte)

/-- The token names a directive, which ends in an open list. -/
def isDirective (t : Token) : Bool :=
  t.isNamed "byte" || t.isNamed "word"

/-! ## Registers -/

theorem register_eq_ok_iff {t : Token} {r : Register} :
    t.register = .ok r ↔
      t.kind = .word ∧ ∃ letter digits, t.lexeme.toList = letter :: digits ∧
        letter.toUpper = 'R' ∧ digits ≠ [] ∧ digits.all Char.isDigit = true ∧
        r.number.toNat = numeralValue 10 digits := by
  unfold register
  constructor
  · intro h
    -- the lexeme has a letter and a digit at least, or it is no register
    split at h
    · next letter d ds hlexeme =>
        by_cases hform :
            (t.kind = .word && letter.toUpper = 'R' && (d :: ds).all Char.isDigit) = true
        · rw [if_pos hform] at h
          simp only [Bool.and_eq_true, decide_eq_true_eq] at hform
          obtain ⟨⟨hword, hletter⟩, hdigits⟩ := hform
          cases hnumber : Field.ofNat? 4 (numeralValue 10 (d :: ds)) with
          | none =>
              rw [hnumber] at h
              cases h
          | some number =>
              rw [hnumber] at h
              cases h
              exact ⟨hword, letter, d :: ds, hlexeme, hletter, by simp, hdigits,
                Field.ofNat?_eq_some_iff.mp hnumber⟩
        · rw [if_neg hform] at h
          cases h
    · cases h
  · rintro ⟨hword, letter, digits, hlexeme, hletter, hne, hdigits, hnumber⟩
    cases digits with
    | nil => exact absurd rfl hne
    | cons d ds =>
        have hform :
            (t.kind = .word && letter.toUpper = 'R' && (d :: ds).all Char.isDigit) = true := by
          simp only [hword, hletter, hdigits, decide_true, Bool.and_true]
        rw [hlexeme]
        simp only [if_pos hform, Field.ofNat?_eq_some_iff.mpr hnumber]

theorem kind_of_register {t : Token} {r : Register} (h : t.register = .ok r) : t.kind = .word :=
  (register_eq_ok_iff.mp h).1

/-! ## Numbers -/

theorem numeric_eq_ok_iff {t u : Token} :
    t.numeric = .ok u ↔ t.kind.isNumeric = true ∧ u = t := by
  unfold numeric
  by_cases hnumeric : t.kind.isNumeric = true
  · simp [hnumeric, eq_comm]
  · simp [hnumeric]

theorem hexLiteral_eq_ok_iff {t u : Token} :
    t.hexLiteral = .ok u ↔ t.kind = .hexNumber ∧ u = t := by
  unfold hexLiteral
  by_cases hhex : t.kind = .hexNumber
  · simp [hhex, eq_comm]
  · simp [hhex]

theorem numberIn_of_numeric {t : Token} {place : OperandPlace}
    (hnumeric : t.kind.isNumeric = true) : t.numberIn place = t.field place := by
  rw [numberIn, numeric_eq_ok_iff.mpr ⟨hnumeric, rfl⟩]
  rfl

theorem numeric_of_bind {α : Type} {t : Token} {convert : Token → Except Problem α} {a : α}
    (h : t.numeric.bind convert = .ok a) : t.kind.isNumeric = true ∧ convert t = .ok a := by
  cases hnumeric : t.numeric with
  | error problem =>
      rw [hnumeric] at h
      cases h
  | ok u =>
      obtain ⟨hkind, rfl⟩ := numeric_eq_ok_iff.mp hnumeric
      rw [hnumeric] at h
      exact ⟨hkind, h⟩

/-- A number is taken in a place just when its value fits. -/
theorem numberIn_eq_ok_iff {t : Token} {place : OperandPlace} {bits : BitVec place.width} :
    t.numberIn place = .ok bits ↔ t.kind.isNumeric = true ∧ bits.toNat = t.value := by
  constructor
  · intro h
    obtain ⟨hnumeric, hfield⟩ := numeric_of_bind h
    unfold field at hfield
    cases hbits : Field.ofNat? place.width t.value with
    | none =>
        rw [hbits] at hfield
        cases hfield
    | some found =>
        rw [hbits] at hfield
        cases hfield
        exact ⟨hnumeric, Field.ofNat?_eq_some_iff.mp hbits⟩
  · rintro ⟨hnumeric, hvalue⟩
    rw [numberIn_of_numeric hnumeric, field, Field.ofNat?_eq_some_iff.mpr hvalue]

/-- A number is taken as a constant just when its value has 32 bits and a rotated form. -/
theorem constant_eq_ok_iff {t : Token} {b : RotatedByte} :
    t.constant = .ok b ↔
      t.kind.isNumeric = true ∧ ∃ n : BitVec 32, n.toNat = t.value ∧
        RotatedByte.ofConstant? n = some b := by
  constructor
  · intro h
    obtain ⟨hnumeric, hrotated⟩ := numeric_of_bind h
    unfold rotatedByte at hrotated
    cases hfound : (Field.ofNat? 32 t.value).bind RotatedByte.ofConstant? with
    | none =>
        rw [hfound] at hrotated
        cases hrotated
    | some found =>
        rw [hfound] at hrotated
        cases hrotated
        obtain ⟨n, hn, hb⟩ := Option.bind_eq_some_iff.mp hfound
        exact ⟨hnumeric, n, Field.ofNat?_eq_some_iff.mp hn, hb⟩
  · rintro ⟨hnumeric, n, hn, hb⟩
    have hfound : (Field.ofNat? 32 t.value).bind RotatedByte.ofConstant? = some b :=
      Option.bind_eq_some_iff.mpr ⟨n, Field.ofNat?_eq_some_iff.mpr hn, hb⟩
    rw [constant, numeric_eq_ok_iff.mpr ⟨hnumeric, rfl⟩]
    show t.rotatedByte = .ok b
    rw [rotatedByte, hfound]

/-! ## Names

Directives are tried before instructions. No directive is an instruction word, and none has the name
of another, so the order makes no difference. -/

/-- A directive is named by no instruction word. -/
theorem ofWord?_eq_none_of_isNamed {t : Token} {name : String} (h : t.isNamed name = true)
    (hname : Mnemonic.ofWord? name = none) : Mnemonic.ofWord? t.lexeme = none := by
  have hfolded : folded t.lexeme = folded name := by
    simp only [isNamed, sameFolded, Bool.and_eq_true, beq_iff_eq] at h
    exact h.2
  rw [← hname, Mnemonic.ofWord?, Mnemonic.ofWord?, hfolded]

theorem isNamed_eq_false {t : Token} {name other : String} (h : t.isNamed name = true)
    (hother : folded name ≠ folded other) : t.isNamed other = false := by
  simp only [isNamed, sameFolded, Bool.and_eq_true, beq_iff_eq] at h
  simp [isNamed, sameFolded, h.2, hother]

end Token

/-! ## Digits two by two -/

/-- Digits that are taken two by two are even in number. -/
theorem even_of_bytesOfDigits {digits : List Char} {contents : List UInt8}
    (h : bytesOfDigits? digits = some contents) : digits.length % 2 = 0 := by
  fun_induction bytesOfDigits? digits generalizing contents with
  | case1 => rfl
  | case2 => cases h
  | case3 high low digits _ ih =>
      obtain ⟨rest, hrest, -⟩ := Option.map_eq_some_iff.mp h
      have heven := ih hrest
      simp only [List.length_cons]
      omega
  | case4 => cases h

/-- An even number of hexadecimal digits can be taken two by two. -/
theorem exists_bytesOfDigits {digits : List Char} (hdigits : digits.all isHexDigit = true)
    (heven : digits.length % 2 = 0) : ∃ contents, bytesOfDigits? digits = some contents := by
  fun_induction bytesOfDigits? digits with
  | case1 => exact ⟨[], rfl⟩
  | case2 => simp at heven
  | case3 high low digits _ ih =>
      simp only [List.all_cons, Bool.and_eq_true] at hdigits
      simp only [List.length_cons] at heven
      obtain ⟨contents, hcontents⟩ := ih hdigits.2.2 (by omega)
      exact ⟨_, Option.map_eq_some_iff.mpr ⟨contents, hcontents, rfl⟩⟩
  | case4 high low digits hneither =>
      simp only [List.all_cons, Bool.and_eq_true] at hdigits
      simp [hdigits.1, hdigits.2.1] at hneither

theorem bytesOfLiterals_eq_ok_iff {literals : List Token} {span : Span}
    {contents : List UInt8} :
    bytesOfLiterals literals span = .ok contents ↔
      bytesOfDigits? (literals.flatMap Token.digits) = some contents := by
  unfold bytesOfLiterals
  dsimp only
  constructor
  · intro h
    split at h
    · cases h
    · split at h
      · next hdigits =>
          cases h
          exact hdigits
      · cases h
  · intro h
    have heven := even_of_bytesOfDigits h
    rw [if_neg (by omega), h]

end ArmAssembly
