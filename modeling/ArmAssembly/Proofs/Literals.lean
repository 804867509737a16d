import ArmAssembly.Proofs.ConstantForms
import ArmAssembly.Proofs.FieldConversions
import ArmAssembly.Proofs.Lossless
import ArmAssembly.Proofs.Numerals

set_option autoImplicit false

/-! # Literals and machine words

A literal has any number of digits, and stands for the number that they spell to its base
(`Token.IsLiteral.value`). A machine reads it digit by digit into a word of 64 bits and gives up as
soon as a product or a sum does not fit; then it narrows the word to the place. That comes to one
comparison of the exact number with the width of the place (`Field.narrow_ofDigits`), so leading
zeros, the base and the width of the word leave no trace.
-/

namespace ArmAssembly

/-! ## Digits -/

theorem isDigit_bounds {c : Char} (h : c.isDigit = true) : 48 ≤ c.toNat ∧ c.toNat ≤ 57 := by
  simp only [Char.isDigit, Bool.and_eq_true, decide_eq_true_eq, UInt32.le_iff_toNat_le,
    ge_iff_le] at h
  exact h

theorem digitValue_lt_of_isDigit {c : Char} (h : c.isDigit = true) : digitValue c < 10 := by
  have hbounds := isDigit_bounds h
  have hzero : '0'.toNat = 48 := rfl
  rw [digitValue, if_pos h, hzero]
  omega

/-- What holds of the ten digits and of the six letters in both cases holds of every hexadecimal
digit. -/
theorem forall_hexDigit {P : Char → Prop} (hdigit : ∀ k : Fin 10, P (Char.ofNat (48 + k)))
    (hcapital : ∀ k : Fin 6, P (Char.ofNat (65 + k)))
    (hsmall : ∀ k : Fin 6, P (Char.ofNat (97 + k))) {c : Char} (h : isHexDigit c = true) : P c := by
  have hrange {first count : Nat} (hle : first ≤ c.toNat) (hlt : c.toNat - first < count)
      (hall : ∀ k : Fin count, P (Char.ofNat (first + k))) : P c := by
    have hk := hall ⟨c.toNat - first, hlt⟩
    rwa [Nat.add_sub_cancel' hle, Char.ofNat_toNat] at hk
  simp only [isHexDigit, Bool.or_eq_true, Bool.and_eq_true, decide_eq_true_eq, Char.le_def,
    UInt32.le_iff_toNat_le] at h
  rcases h with (hc | hc) | hc
  · have hbounds := isDigit_bounds hc
    exact hrange hbounds.1 (by omega) hdigit
  · have hbounds : 65 ≤ c.toNat ∧ c.toNat ≤ 70 := hc
    exact hrange hbounds.1 (by omega) hcapital
  · have hbounds : 97 ≤ c.toNat ∧ c.toNat ≤ 102 := hc
    exact hrange hbounds.1 (by omega) hsmall

theorem digitValue_lt_of_isHexDigit {c : Char} (h : isHexDigit c = true) : digitValue c < 16 :=
  forall_hexDigit (P := fun c => digitValue c < 16) (by decide) (by decide) (by decide) h

/-- A numeral stands for its digits in a positional system. -/
theorem numeralValue_eq_ofDigits (base : Nat) (digits : List Char) :
    numeralValue base digits = Nat.ofDigits base (digits.reverse.map digitValue) := by
  -- reading ends with the last digit, which is the first of the reversed list
  induction digits using List.reverseRecOn with
  | nil => rfl
  | append_singleton digits digit ih =>
      rw [numeralValue_append, ih, List.reverse_append, List.reverse_singleton,
        List.singleton_append, List.map_cons, Nat.ofDigits_cons, Nat.add_comm]

/-! ## Literals -/

namespace Token

/-- The base that a numeric token is written in. -/
def base (t : Token) : Nat :=
  if t.kind = .hexNumber then 16 else 10

/-- The lexeme is a numeral of one or more digits, behind the mark of its base. -/
structure IsLiteral (t : Token) : Prop where
  lexeme : t.kind = .number ∧ t.lexeme.toList = t.digits ∨
    ∃ x, t.kind = .hexNumber ∧ isHexMark x = true ∧ t.lexeme.toList = '0' :: x :: t.digits
  digits_ne_nil : t.digits ≠ []
  digits_lt : ∀ d ∈ t.digits, digitValue d < t.base

/-- The value of a literal is the number that its digits spell. -/
theorem IsLiteral.value {t : Token} (_ : t.IsLiteral) :
    t.value = Nat.ofDigits t.base (t.digits.reverse.map digitValue) :=
  numeralValue_eq_ofDigits _ _

theorem isLiteral_of_isShaped {t : Token} (hshaped : t.isShaped = true)
    (hnumeric : t.kind.isNumeric = true) : t.IsLiteral := by
  simp only [TokenKind.isNumeric, Bool.or_eq_true, decide_eq_true_eq] at hnumeric
  unfold isShaped at hshaped
  -- the digits are all of the lexeme, or what stands behind `0x`
  rcases hnumeric with hnumber | hhex
  · rw [hnumber] at hshaped
    simp only [Bool.and_eq_true, List.all_eq_true, Bool.not_eq_true',
      List.isEmpty_eq_false_iff] at hshaped
    have hdigits : t.digits = t.lexeme.toList := by simp [digits, hnumber]
    have hbase : t.base = 10 := by simp [base, hnumber]
    refine ⟨.inl ⟨hnumber, hdigits.symm⟩, hdigits ▸ hshaped.2, fun d hd => ?_⟩
    rw [hbase]
    exact digitValue_lt_of_isDigit (hshaped.1 d (hdigits ▸ hd))
  · rw [hhex] at hshaped
    have hbase : t.base = 16 := by simp [base, hhex]
    have hdigits : t.digits = t.lexeme.toList.drop 2 := by simp [digits, hhex]
    simp only at hshaped
    unfold isHexLexeme at hshaped
    split at hshaped
    · next zero x ds hlexeme =>
        rw [hlexeme, List.drop_succ_cons, List.drop_succ_cons, List.drop_zero] at hdigits
        simp only [Bool.and_eq_true, decide_eq_true_eq, List.all_eq_true, Bool.not_eq_true',
          List.isEmpty_eq_false_iff] at hshaped
        obtain ⟨⟨⟨rfl, hx⟩, hall⟩, hne⟩ := hshaped
        refine ⟨.inr ⟨x, hhex, hx, by rw [hlexeme, hdigits]⟩, hdigits ▸ hne, fun d hd => ?_⟩
        rw [hbase]
        exact digitValue_lt_of_isHexDigit (hall d (hdigits ▸ hd))
    · cases hshaped

end Token

/-- The tokens of a text have the forms that their kinds ask for. -/
theorem isShaped_of_scan {source : List Char} {tokens : List Token}
    (h : scan source = .ok tokens) : ∀ t ∈ tokens, t.isShaped = true := by
  intro t ht
  obtain ⟨_, _, _, -, -, -, -, hstands⟩ := (scan_lossless h).standing t ht
  exact hstands.shaped

/-! ## Machine words

Multiplying and adding never make a number smaller. So if a step does not fit into the word, then
the number does not fit either, and the steps in between need not be looked at. -/

namespace Field

variable {w v base : Nat}

theorem ofNat?_eq_none_iff {n : Nat} : ofNat? w n = none ↔ 2 ^ w ≤ n := by
  unfold ofNat?
  by_cases hlt : n < Nat.pow 2 w
  · rw [dif_pos hlt]
    exact iff_of_false nofun (Nat.not_le.mpr hlt)
  · rw [dif_neg hlt]
    exact iff_of_true rfl (Nat.le_of_not_lt hlt)

theorem ofNat?_toNat (bits : BitVec w) : ofNat? w bits.toNat = some bits :=
  ofNat?_eq_some_iff.mpr rfl

/-- A word takes one more digit, unless the product or the sum does not fit. -/
def pushDigit? (w base : Nat) (word : BitVec w) (digit : Char) : Option (BitVec w) := do
  let product ← ofNat? w (base * word.toNat)
  ofNat? w (product.toNat + digitValue digit)

/-- Reads a numeral into a word of `w` bits, from its first digit to its last. -/
def ofDigits? (w base : Nat) (digits : List Char) : Option (BitVec w) :=
  digits.foldlM (pushDigit? w base) 0

/-- A word without a sign as a narrower one, if its number fits. -/
def narrow? (w : Nat) (word : BitVec v) : Option (BitVec w) :=
  (ofMachine w ⟨v, false⟩ word).toOption

theorem pushDigit?_eq (word : BitVec w) (digit : Char) :
    pushDigit? w base word digit = ofNat? w (base * word.toNat + digitValue digit) := by
  unfold pushDigit?
  cases hproduct : ofNat? w (base * word.toNat) with
  | none =>
      -- what does not fit does not fit with a digit added to it
      have hwide := ofNat?_eq_none_iff.mp hproduct
      exact (ofNat?_eq_none_iff.mpr (Nat.le_trans hwide (Nat.le_add_right _ _))).symm
  | some product =>
      rw [← ofNat?_eq_some_iff.mp hproduct]
      rfl

/-- A number that is too wide stays so, whatever digits follow. -/
theorem le_foldl_of_le (hbase : 0 < base) (digits : List Char) {n : Nat} (hwide : 2 ^ w ≤ n) :
    2 ^ w ≤ digits.foldl (fun value digit => base * value + digitValue digit) n := by
  induction digits generalizing n with
  | nil => exact hwide
  | cons digit digits ih =>
      refine ih (Nat.le_trans hwide ?_)
      exact Nat.le_trans (Nat.le_mul_of_pos_left n hbase) (Nat.le_add_right _ _)

theorem foldlM_pushDigit? (hbase : 0 < base) (digits : List Char) (word : BitVec w) :
    digits.foldlM (pushDigit? w base) word =
      ofNat? w (digits.foldl (fun value digit => base * value + digitValue digit) word.toNat) := by
  induction digits generalizing word with
  | nil => exact (ofNat?_toNat word).symm
  | cons digit digits ih =>
      rw [List.foldlM_cons, pushDigit?_eq, List.foldl_cons]
      cases hnext : ofNat? w (base * word.toNat + digitValue digit) with
      | none =>
          have hwide := ofNat?_eq_none_iff.mp hnext
          exact (ofNat?_eq_none_iff.mpr (le_foldl_of_le hbase digits hwide)).symm
      | some next =>
          rw [← ofNat?_eq_some_iff.mp hnext]
          exact ih next

/-- **Reading into a word does not wrap**: it succeeds just if the exact number fits. -/
theorem ofDigits?_eq (hbase : 0 < base) (digits : List Char) :
    ofDigits? w base digits = ofNat? w (numeralValue base digits) := by
  rw [ofDigits?, foldlM_pushDigit? hbase]
  rfl

theorem narrow?_eq (word : BitVec v) : narrow? w word = ofNat? w word.toNat := by
  have hvalue : IntType.value ⟨v, false⟩ word = word.toNat := rfl
  have hlow : 0 ≤ IntType.value ⟨v, false⟩ word := Int.natCast_nonneg _
  unfold narrow?
  by_cases hlt : word.toNat < 2 ^ w
  · have hhigh : IntType.value ⟨v, false⟩ word < 2 ^ w := by
      rw [hvalue]
      exact_mod_cast hlt
    obtain ⟨f, hok, hf⟩ := exists_ofMachine_eq_ok hlow hhigh
    rw [hok, ofNat?_eq_some_iff.mpr (Int.ofNat.inj (hf.trans hvalue))]
    rfl
  · have hwide : 2 ^ w ≤ IntType.value ⟨v, false⟩ word := by
      rw [hvalue]
      exact_mod_cast Nat.le_of_not_lt hlt
    rw [ofMachine_eq_tooLarge_iff.mpr hwide, ofNat?_eq_none_iff.mpr (Nat.le_of_not_lt hlt)]
    rfl

/-- A number that fits into a narrow word fits into a wide one on the way. -/
theorem bind_narrow? (hle : w ≤ v) (n : Nat) : (ofNat? v n).bind (narrow? w) = ofNat? w n := by
  cases hwide : ofNat? v n with
  | none =>
      have hpow : 2 ^ w ≤ 2 ^ v := Nat.pow_le_pow_right (by decide) hle
      exact (ofNat?_eq_none_iff.mpr (Nat.le_trans hpow (ofNat?_eq_none_iff.mp hwide))).symm
  | some word => rw [Option.bind_some, narrow?_eq, ofNat?_eq_some_iff.mp hwide]

/-- **Reading into a wide word and narrowing it** keeps the exact number, or fails if that does not
fit into the narrow one. -/
theorem narrow_ofDigits (hbase : 0 < base) (hle : w ≤ v) (digits : List Char) :
    (ofDigits? v base digits).bind (narrow? w) = ofNat? w (numeralValue base digits) := by
  rw [ofDigits?_eq hbase, bind_narrow? hle]

/-- Twenty-one digits that are one, and one more than fits into 64 bits. -/
example : (ofDigits? 64 10 "000000000000000000001".toList).bind (narrow? 4) = some 1#4 ∧
    ofDigits? 64 16 "10000000000000000".toList = none := by decide

end Field

namespace Token

theorem base_pos (t : Token) : 0 < t.base := by
  unfold base
  split <;> decide

/-- The number fits into the place and is kept, or it is too wide. -/
theorem field_eq_of_value (t : Token) (place : OperandPlace) :
    (t.value < 2 ^ place.width → ∃ bits, bits.toNat = t.value ∧ t.field place = .ok bits) ∧
      (2 ^ place.width ≤ t.value →
        t.field place = .error (t.unencodable (.tooWide t.lexeme place))) := by
  unfold field
  refine ⟨fun hlt => ?_, fun hle => ?_⟩
  · rw [Field.ofNat?_eq_some_iff.mpr (BitVec.toNat_ofNatLT t.value hlt)]
    exact ⟨_, BitVec.toNat_ofNatLT t.value hlt, rfl⟩
  · rw [Field.ofNat?_eq_none_iff.mpr hle]

end Token

/-- The number has 32 bits, which are a byte turned right by an even distance. -/
def IsTurnedByte (n : Nat) : Prop :=
  n < 2 ^ 32 ∧ ∃ (byte : BitVec 8) (r : Nat), r < 16 ∧
    BitVec.ofNat 32 n = (byte.setWidth 32).rotateRight (2 * r)

theorem isTurnedByte_iff {n : Nat} : IsTurnedByte n ↔ ∃ b : RotatedByte, b.constant.toNat = n := by
  constructor
  · rintro ⟨hlt, byte, r, hr, hbyte⟩
    obtain ⟨b, hb, -⟩ := RotatedByte.exists_form_iff.mpr ⟨hr, byte, hbyte⟩
    refine ⟨b, ?_⟩
    rw [hb, BitVec.toNat_ofNat]
    exact Nat.mod_eq_of_lt hlt
  · rintro ⟨b, rfl⟩
    obtain ⟨hr, byte, hbyte⟩ := RotatedByte.exists_form_iff.mp ⟨b, rfl, rfl⟩
    refine ⟨b.constant.isLt, byte, _, hr, ?_⟩
    rw [BitVec.ofNat_toNat, BitVec.setWidth_eq]
    exact hbyte

namespace Token

/-- The number is a byte that was turned and its form stands for it, or it has no such form. -/
theorem rotatedByte_eq_of_value (t : Token) :
    (IsTurnedByte t.value → ∃ b : RotatedByte, b.constant.toNat = t.value ∧
        t.rotatedByte = .ok b) ∧
      (¬ IsTurnedByte t.value →
        t.rotatedByte = .error (t.unencodable (.noRotatedForm t.lexeme))) := by
  unfold rotatedByte
  cases hfound : (Field.ofNat? 32 t.value).bind RotatedByte.ofConstant? with
  | none =>
      refine ⟨fun hturned => ?_, fun _ => rfl⟩
      obtain ⟨b, hb⟩ := isTurnedByte_iff.mp hturned
      have hsome := RotatedByte.isSome_ofConstant?.mpr ⟨b, rfl⟩
      rw [Field.ofNat?_eq_some_iff.mpr hb, Option.bind_some] at hfound
      rw [hfound] at hsome
      cases hsome
  | some b =>
      obtain ⟨n, hn, hb⟩ := Option.bind_eq_some_iff.mp hfound
      have hvalue : b.constant.toNat = t.value := by
        rw [RotatedByte.constant_of_ofConstant? hb, Field.ofNat?_eq_some_iff.mp hn]
      exact ⟨fun _ => ⟨b, hvalue, rfl⟩, fun hnot => absurd (isTurnedByte_iff.mpr ⟨b, hvalue⟩) hnot⟩

/-! ## Registers -/

/-- The word is the letter `R` in either case and one or more decimal digits. -/
structure IsRegisterWord (t : Token) (digits : List Char) : Prop where
  word : t.kind = .word
  lexeme : ∃ letter, t.lexeme.toList = letter :: digits ∧ letter.toUpper = 'R'
  digits_ne_nil : digits ≠ []
  decimal : ∀ d ∈ digits, d.isDigit = true

/-- The number of a register is read through a word of 32 bits. -/
theorem register_eq_narrow {t : Token} {digits : List Char} (h : t.IsRegisterWord digits) :
    t.register = match (Field.ofDigits? 32 10 digits).bind (Field.narrow? 4) with
      | some number => .ok ⟨number⟩
      | none => .error (t.unencodable (.noSuchRegister t.lexeme)) := by
  obtain ⟨hword, ⟨letter, hlexeme, hletter⟩, hne, hdecimal⟩ := h
  rw [Field.narrow_ofDigits (by decide) (by decide)]
  cases digits with
  | nil => exact absurd rfl hne
  | cons d ds =>
      have hform :
          (t.kind = .word && letter.toUpper = 'R' && (d :: ds).all Char.isDigit) = true := by
        simp only [hword, hletter, List.all_eq_true.mpr hdecimal, decide_true, Bool.and_true]
      unfold register
      rw [hlexeme]
      exact if_pos hform

/-- The register has the number that the digits spell, or there is none with that number. -/
theorem register_eq_of_value {t : Token} {digits : List Char} (h : t.IsRegisterWord digits) :
    (numeralValue 10 digits < 16 →
        ∃ r : Register, r.number.toNat = numeralValue 10 digits ∧ t.register = .ok r) ∧
      (16 ≤ numeralValue 10 digits →
        t.register = .error (t.unencodable (.noSuchRegister t.lexeme))) := by
  rw [register_eq_narrow h, Field.narrow_ofDigits (by decide) (by decide)]
  refine ⟨fun hlt => ?_, fun hle => ?_⟩
  · rw [Field.ofNat?_eq_some_iff.mpr (BitVec.toNat_ofNatLT (w := 4) _ hlt)]
    exact ⟨_, BitVec.toNat_ofNatLT _ hlt, rfl⟩
  · rw [Field.ofNat?_eq_none_iff.mpr hle]

end Token

end ArmAssembly
