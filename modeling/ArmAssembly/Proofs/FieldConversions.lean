import ArmAssembly.Machine.Encoding
import Mathlib

set_option autoImplicit false

/-! # Conversions between machine integers and fields

A machine integer is put into a field of `w` bits just if the number it stands for lies from zero up
to `2 ^ w - 1`, whatever its type. This comes to two comparisons of the number, which the bits alone
decide (`Field.ofMachine_of_neg`, `Field.ofMachine_of_nonneg`).

The bits of a field are kept in an unsigned machine integer with room for them: fields of 4, 12, 16
and 24 bits in integers of 8, 16, 16 and 32 bits. A number is then converted to that integer first,
which can fail by itself, and what is left is compared with the largest number of the field. The
integer between leaves no trace, be it wider than the type that is converted, as wide, or narrower
(`Field.keep_eq`).

A word is packed by shifting each field to its place, where it covers its own bits only
(`Field.getLsbD_or_placed`). So the word is made of its fields one beside the other
(`Instruction.packed_eq_encode`).
-/

namespace ArmAssembly

/-! ## Machine integers -/

namespace IntType

theorem value_neg_iff (type : IntType) (n : BitVec type.width) :
    type.value n < 0 ↔ (type.signed && n.msb) = true := by
  unfold value
  cases type.signed with
  | false =>
      rw [if_neg Bool.false_ne_true, Bool.false_and]
      exact iff_of_false (Int.not_lt.mpr (Int.natCast_nonneg _)) Bool.false_ne_true
  | true => rw [if_pos rfl, Bool.true_and, BitVec.msb_eq_toInt, decide_eq_true_iff]

/-- A machine integer that is not negative stands for the number of its bits. -/
theorem value_eq_toNat {type : IntType} {n : BitVec type.width} (h : 0 ≤ type.value n) :
    type.value n = n.toNat := by
  have hsign : ¬ (type.signed && n.msb) = true := by
    rw [← value_neg_iff]
    omega
  unfold value
  cases hsigned : type.signed with
  | false => exact if_neg Bool.false_ne_true
  | true =>
      rw [hsigned, Bool.true_and, Bool.not_eq_true] at hsign
      rw [if_pos rfl, BitVec.toInt_eq_toNat_of_msb hsign]

/-- The unsigned machine integer of `v` bits for the same number, if it has room for it. -/
def toUnsigned? (type : IntType) (v : Nat) (n : BitVec type.width) : Option (BitVec v) :=
  if 0 ≤ type.value n ∧ type.value n < 2 ^ v then some (BitVec.ofInt v (type.value n)) else none

theorem toUnsigned?_of_neg {type : IntType} {n : BitVec type.width} (v : Nat)
    (h : type.value n < 0) : type.toUnsigned? v n = none :=
  if_neg fun hroom => Int.not_le.mpr h hroom.1

theorem toUnsigned?_of_nonneg {type : IntType} {n : BitVec type.width} (v : Nat)
    (h : 0 ≤ type.value n) :
    type.toUnsigned? v n = if type.value n < 2 ^ v then some (n.setWidth v) else none := by
  have hbits : BitVec.ofInt v (type.value n) = n.setWidth v := by
    rw [value_eq_toNat h, BitVec.ofInt_natCast, BitVec.ofNat_toNat]
  unfold toUnsigned?
  rw [hbits]
  exact if_congr (and_iff_right h) rfl rfl

end IntType

namespace Field

variable {w v : Nat} {type : IntType} {n : BitVec type.width}

/-! ## Numbers that fit -/

theorem ofMachine_of_neg (h : type.value n < 0) : ofMachine w type n = .error .tooSmall :=
  if_pos ((type.value_neg_iff n).mp h)

theorem ofMachine_of_nonneg (h : 0 ≤ type.value n) :
    ofMachine w type n =
      if 2 ^ w ≤ type.value n then .error .tooLarge else .ok (n.setWidth w) := by
  have hsign : ¬ (type.signed && n.msb) = true := by
    rw [← IntType.value_neg_iff]
    omega
  have hwide : Nat.pow 2 w ≤ n.toNat ↔ (2 : Int) ^ w ≤ type.value n := by
    rw [IntType.value_eq_toNat h]
    norm_cast
  unfold ofMachine
  rw [if_neg hsign]
  exact if_congr hwide rfl rfl

theorem ofMachine_eq_tooSmall_iff :
    ofMachine w type n = .error .tooSmall ↔ type.value n < 0 := by
  by_cases hneg : type.value n < 0
  · exact iff_of_true (ofMachine_of_neg hneg) hneg
  · rw [ofMachine_of_nonneg (Int.not_lt.mp hneg)]
    refine iff_of_false ?_ hneg
    split <;> simp

theorem ofMachine_eq_tooLarge_iff :
    ofMachine w type n = .error .tooLarge ↔ 2 ^ w ≤ type.value n := by
  by_cases hneg : type.value n < 0
  · have hpos : (0 : Int) < 2 ^ w := Int.pow_pos (by decide)
    rw [ofMachine_of_neg hneg]
    exact iff_of_false (by simp) (by omega)
  · rw [ofMachine_of_nonneg (Int.not_lt.mp hneg)]
    by_cases hwide : 2 ^ w ≤ type.value n
    · rw [if_pos hwide]
      exact iff_of_true rfl hwide
    · rw [if_neg hwide]
      exact iff_of_false (by simp) hwide

/-- A number that fits is kept. -/
theorem exists_ofMachine_eq_ok (hlow : 0 ≤ type.value n) (hhigh : type.value n < 2 ^ w) :
    ∃ f, ofMachine w type n = .ok f ∧ (f.toNat : Int) = type.value n := by
  refine ⟨n.setWidth w, ?_, ?_⟩
  · rw [ofMachine_of_nonneg hlow, if_neg (Int.not_le.mpr hhigh)]
  · rw [IntType.value_eq_toNat hlow] at hhigh ⊢
    have hlt : n.toNat < 2 ^ w := by exact_mod_cast hhigh
    rw [BitVec.toNat_setWidth, Nat.mod_eq_of_lt hlt]

/-- A field stands for the same number in every wider integer. -/
theorem value_setWidth (f : BitVec w) (h : w ≤ v) :
    IntType.value ⟨v, false⟩ (f.setWidth v) = f.toNat := by
  show ((f.setWidth v).toNat : Int) = f.toNat
  rw [BitVec.toNat_setWidth_of_le h]

/-! ## The integer that keeps a field

The number is checked twice, first against the integer between and then against the field. It is
enough to compare both bounds: the first is never the smaller one. -/

/-- The largest number of a field of `w` bits, in an integer of `v` bits. -/
def largest (w v : Nat) : BitVec v := BitVec.ofNat v (2 ^ w - 1)

/-- Converts a machine integer to the unsigned one of `v` bits that keeps a field of `w` bits. Of
what has no room there the sign tells why; what has room is compared with the largest number of the
field. -/
def keep (w v : Nat) (type : IntType) (n : BitVec type.width) : Except FitError (BitVec v) :=
  match type.toUnsigned? v n with
  | none => if type.value n < 0 then .error .tooSmall else .error .tooLarge
  | some kept => if largest w v < kept then .error .tooLarge else .ok kept

theorem toNat_largest (h : w ≤ v) : (largest w v).toNat = 2 ^ w - 1 := by
  have hpow : 2 ^ w ≤ 2 ^ v := Nat.pow_le_pow_right (by decide) h
  have hpos : 0 < 2 ^ w := Nat.two_pow_pos w
  rw [largest, BitVec.toNat_ofNat, Nat.mod_eq_of_lt]
  omega

/-- In an integer that has room for it, a number passes the largest one of a field just if it is too
large for the field. -/
theorem largest_lt_iff (h : w ≤ v) (hlow : 0 ≤ type.value n) (hroom : type.value n < 2 ^ v) :
    largest w v < n.setWidth v ↔ 2 ^ w ≤ type.value n := by
  have hpos : 0 < 2 ^ w := Nat.two_pow_pos w
  rw [IntType.value_eq_toNat hlow] at hroom ⊢
  have hlt : n.toNat < 2 ^ v := by exact_mod_cast hroom
  rw [BitVec.lt_def, toNat_largest h, BitVec.toNat_setWidth, Nat.mod_eq_of_lt hlt]
  norm_cast
  omega

theorem setWidth_setWidth_of_lt {u : Nat} {bits : BitVec u} (h : w ≤ v) (hlt : bits.toNat < 2 ^ w) :
    (bits.setWidth w).setWidth v = bits.setWidth v := by
  apply BitVec.eq_of_toNat_eq
  rw [BitVec.toNat_setWidth_of_le h, BitVec.toNat_setWidth, BitVec.toNat_setWidth,
    Nat.mod_eq_of_lt hlt, Nat.mod_eq_of_lt]
  exact Nat.lt_of_lt_of_le hlt (Nat.pow_le_pow_right (by decide) h)

/-- **The integer that keeps a field leaves no trace**: the conversion to it fails as the conversion
to the field does, and what it keeps is the field. -/
theorem keep_eq (h : w ≤ v) : keep w v type n = (ofMachine w type n).map (·.setWidth v) := by
  have hpow : (2 : Int) ^ w ≤ 2 ^ v := by exact_mod_cast Nat.pow_le_pow_right (by decide) h
  unfold keep
  by_cases hneg : type.value n < 0
  · rw [ofMachine_of_neg hneg, IntType.toUnsigned?_of_neg v hneg]
    exact if_pos hneg
  · have hlow : 0 ≤ type.value n := Int.not_lt.mp hneg
    rw [ofMachine_of_nonneg hlow, IntType.toUnsigned?_of_nonneg v hlow]
    -- too large for the field, or already for the integer between
    by_cases hroom : type.value n < 2 ^ v
    · rw [if_pos hroom]
      by_cases hwide : 2 ^ w ≤ type.value n
      · rw [if_pos hwide]
        exact if_pos ((largest_lt_iff h hlow hroom).mpr hwide)
      · rw [if_neg hwide]
        show (if largest w v < n.setWidth v then _ else _) = Except.ok ((n.setWidth w).setWidth v)
        rw [if_neg (mt (largest_lt_iff h hlow hroom).mp hwide), setWidth_setWidth_of_lt h]
        rw [IntType.value_eq_toNat hlow] at hwide
        exact_mod_cast Int.not_le.mp hwide
    · have hwide : 2 ^ w ≤ type.value n := by omega
      rw [if_neg hroom, if_pos hwide]
      exact if_neg hneg

/-- Too large in two ways: for the field, and already for the integer that keeps it. -/
example : keep 4 8 ⟨8, false⟩ 0x10 = .error .tooLarge ∧
    keep 4 8 ⟨64, false⟩ 0x101 = .error .tooLarge := by decide

/-! ## Places in a word -/

/-- A field at its place in a word, with its lowest bit at bit `p`. -/
def placed (f : BitVec w) (p : Nat) : BitVec 32 := f.setWidth 32 <<< p

theorem getLsbD_placed (f : BitVec w) (p i : Nat) :
    (placed f p).getLsbD i = (decide (i < 32) && decide (p ≤ i) && f.getLsbD (i - p)) := by
  unfold placed
  rw [BitVec.getLsbD_shiftLeft, BitVec.getLsbD_setWidth]
  by_cases hi : i < 32
  · by_cases hp : p ≤ i
    · have hroom : i - p < 32 := by omega
      simp [hi, hp, hroom]
    · simp [hi, hp]
  · simp [hi]

/-- A field that is put into a word leaves the bits outside its place as they are. -/
theorem getLsbD_or_placed (word : BitVec 32) (f : BitVec w) {p i : Nat} (h : i < p ∨ p + w ≤ i) :
    (word ||| placed f p).getLsbD i = word.getLsbD i := by
  rw [BitVec.getLsbD_or, getLsbD_placed]
  rcases h with h | h
  · simp [Nat.not_le.mpr h]
  · have hf : f.getLsbD (i - p) = false := BitVec.getLsbD_of_ge f (i - p) (by omega)
    simp [hf]

/-- A field is read back from its place, if the place was blank. -/
theorem extractLsb'_or_placed (word : BitVec 32) (f : BitVec w) {p : Nat} (hroom : p + w ≤ 32)
    (hblank : ∀ i, p ≤ i → i < p + w → word.getLsbD i = false) :
    (word ||| placed f p).extractLsb' p w = f := by
  apply BitVec.eq_of_getLsbD_eq
  intro i hi
  have hword : word.getLsbD (p + i) = false := hblank (p + i) (by omega) (by omega)
  rw [BitVec.getLsbD_extractLsb', BitVec.getLsbD_or, getLsbD_placed, hword]
  simp [hi]
  omega

theorem placed_zero (f : BitVec w) : placed f 0 = f.setWidth 32 :=
  BitVec.shiftLeft_zero _

/-- Fields that stand side by side are placed one above the other. -/
theorem placed_append (a : BitVec v) (b : BitVec w) (p : Nat) :
    placed (a ++ b) p = placed a (p + w) ||| placed b p := by
  apply BitVec.eq_of_getLsbD_eq
  intro i hi
  rw [BitVec.getLsbD_or, getLsbD_placed, getLsbD_placed, getLsbD_placed, BitVec.getLsbD_append]
  by_cases hlow : p ≤ i
  · by_cases hplace : i - p < w
    · have hbelow : ¬ p + w ≤ i := by omega
      simp [hi, hlow, hplace, hbelow]
    · have habove : p + w ≤ i := by omega
      have hb : b.getLsbD (i - p) = false := BitVec.getLsbD_of_ge b (i - p) (by omega)
      simp [hi, hlow, hplace, habove, hb, Nat.sub_sub]
  · have hbelow : ¬ p + w ≤ i := by omega
    simp [hlow, hbelow]

/-- A mask of `w` bits leaves the lowest bits of a word. -/
theorem and_mask {mask : BitVec 32} (word : BitVec 32) (h : w ≤ 32)
    (hmask : mask.toNat = 2 ^ w - 1) : word &&& mask = (word.setWidth w).setWidth 32 := by
  apply BitVec.eq_of_toNat_eq
  rw [BitVec.toNat_and, hmask, BitVec.toNat_setWidth_of_le h, BitVec.toNat_setWidth]
  exact Nat.and_two_pow_sub_one_eq_mod _ _

end Field

/-! ## Packing instructions

The places are masked before they are put together, which changes nothing, since each value is as
wide as its place. The wide constant is the exception: it is given twice, and the masks cut it into
the two places. -/

/-- Packs the four parts that most actions share. Of each as many bits are taken as its place
has. -/
def pack (opcode first destination operand : BitVec 32) : BitVec 32 :=
  (opcode &&& 0xFF) <<< 20 ||| (first &&& 0xF) <<< 16 ||| (destination &&& 0xF) <<< 12
    ||| operand &&& 0xFFF

/-- The lowest 28 bits of a word, packed by masks and shifts. -/
def Action.packed : Action → BitVec 32
  | branch link offset => (if link then 0xB else 0xA) <<< 24 ||| offset.setWidth 32
  | arithmetic operation setFlags destination first second =>
    pack ((second.opcode operation.opcode).setWidth 32 ||| (BitVec.ofBool setFlags).setWidth 32)
      (first.number.setWidth 32) (destination.number.setWidth 32)
      ((second.field RotatedByte.field).setWidth 32)
  | compare first second =>
    pack ((second.opcode compareOpcode).setWidth 32) (first.number.setWidth 32) 0
      ((second.field id).setWidth 32)
  | moveWide half destination value =>
    -- the places take the upper four bits and the lower twelve
    pack (half.opcode.setWidth 32) (value.setWidth 32 >>> 12) (destination.number.setWidth 32)
      (value.setWidth 32)
  | moveRegister destination source =>
    pack (moveRegisterOpcode.setWidth 32) 0 (destination.number.setWidth 32)
      (source.number.setWidth 32)
  | transfer kind indexing destination base offset =>
    let form : BitVec 32 :=
      match offset with
      | .immediate _ => 0
      | .register _ => operandFormBit.setWidth 32
    pack ((kind.opcode indexing).setWidth 32 ||| form) (base.number.setWidth 32)
      (destination.number.setWidth 32) ((offset.field id).setWidth 32)
  | stack kind registers =>
    kind.opcode.setWidth 32 <<< 16 ||| (Register.mask registers).setWidth 32

/-- The word of an instruction, packed by masks and shifts. -/
def Instruction.packed (i : Instruction) : BitVec 32 :=
  i.condition.nibble.setWidth 32 <<< 28 ||| i.action.packed

theorem placed_layout (opcode : BitVec 8) (first destination : BitVec 4) (operand : BitVec 12) :
    Field.placed (layout opcode first destination operand) 0 =
      Field.placed opcode 20 ||| Field.placed first 16 ||| Field.placed destination 12
        ||| Field.placed operand 0 := by
  calc Field.placed (layout opcode first destination operand) 0
      = Field.placed (opcode ++ first ++ destination) 12 ||| Field.placed operand 0 :=
        Field.placed_append _ operand 0
    _ = Field.placed opcode 20 ||| Field.placed first 16 ||| Field.placed destination 12
          ||| Field.placed operand 0 := by rw [Field.placed_append, Field.placed_append]

theorem pack_eq (opcode first destination operand : BitVec 32) :
    pack opcode first destination operand =
      Field.placed (layout (opcode.setWidth 8) (first.setWidth 4) (destination.setWidth 4)
        (operand.setWidth 12)) 0 := by
  rw [placed_layout, Field.placed_zero, pack,
    Field.and_mask opcode (w := 8) (by decide) (by decide),
    Field.and_mask first (w := 4) (by decide) (by decide),
    Field.and_mask destination (w := 4) (by decide) (by decide),
    Field.and_mask operand (w := 12) (by decide) (by decide)]
  rfl

/-- The upper four bits of a 16-bit value. -/
theorem setWidth_ushiftRight (value : BitVec 16) :
    (value.setWidth 32 >>> 12).setWidth 4 = value.extractLsb' 12 4 := by
  ext i hi
  simp
  omega

/-- Masks and shifts put the fields of an action side by side. -/
theorem Action.packed_eq (a : Action) : a.packed = Field.placed a.bits 0 := by
  cases a with
  | branch link offset =>
      have hbits : Field.placed (branch link offset).bits 0 =
          Field.placed (if link then 0xB#4 else 0xA#4) 24 ||| Field.placed offset 0 :=
        Field.placed_append _ offset 0
      rw [hbits, Field.placed_zero, packed]
      cases link <;> rfl
  | arithmetic operation setFlags destination first second =>
      simp (disch := decide) only [packed, bits, pack_eq, BitVec.setWidth_or,
        BitVec.setWidth_setWidth_of_le, BitVec.setWidth_eq]
  | compare first second =>
      simp (disch := decide) only [packed, bits, pack_eq, BitVec.setWidth_setWidth_of_le,
        BitVec.setWidth_eq]
      rfl
  | moveWide half destination value =>
      simp (disch := decide) only [packed, bits, pack_eq, setWidth_ushiftRight,
        BitVec.setWidth_setWidth_of_le, BitVec.setWidth_eq]
      rfl
  | moveRegister destination source =>
      simp (disch := decide) only [packed, bits, pack_eq, BitVec.setWidth_setWidth_of_le,
        BitVec.setWidth_eq]
      rfl
  | transfer kind indexing destination base offset =>
      cases offset with
      | immediate value =>
          simp (disch := decide) only [packed, bits, pack_eq, BitVec.setWidth_or,
            BitVec.setWidth_setWidth_of_le, BitVec.setWidth_eq]
          rfl
      | register source =>
          simp (disch := decide) only [packed, bits, pack_eq, BitVec.setWidth_or,
            BitVec.setWidth_setWidth_of_le, BitVec.setWidth_eq]
  | stack kind registers =>
      have hbits : Field.placed (stack kind registers).bits 0 =
          Field.placed kind.opcode 16 ||| Field.placed (Register.mask registers) 0 :=
        Field.placed_append kind.opcode (Register.mask registers) 0
      rw [hbits, Field.placed_zero]
      rfl

/-- **Packing by masks and shifts puts all fields side by side.** -/
theorem Instruction.packed_eq_encode (i : Instruction) : i.packed = i.encode := by
  calc i.packed = Field.placed i.condition.nibble 28 ||| Field.placed i.action.bits 0 := by
        rw [packed, Action.packed_eq]
        rfl
    _ = Field.placed i.encode 0 := (Field.placed_append i.condition.nibble i.action.bits 0).symm
    _ = i.encode := by rw [Field.placed_zero, BitVec.setWidth_eq]

/-- **Field conversions are exact for every type of machine integers.** A number is refused as too
small just if it is negative, and as too large just if it is `2 ^ w` or more. Any other is put into
a field that stands for it, also in the integer that keeps the field and in every wider one. The
conversion by way of that integer is the same. A field that is put into a word changes no bit
outside its place and is read back from a blank one, and the words of instructions are packed so.
-/
theorem field_conversions_exact :
    (∀ (w : Nat) (type : IntType) (n : BitVec type.width),
      (Field.ofMachine w type n = .error .tooSmall ↔ type.value n < 0) ∧
      (Field.ofMachine w type n = .error .tooLarge ↔ 2 ^ w ≤ type.value n) ∧
      (0 ≤ type.value n → type.value n < 2 ^ w → ∃ f, Field.ofMachine w type n = .ok f ∧
        f.toNat < 2 ^ w ∧ (f.toNat : Int) = type.value n ∧
        ∀ v u, w ≤ v → v ≤ u → IntType.value ⟨v, false⟩ (f.setWidth v) = type.value n ∧
          IntType.value ⟨u, false⟩ ((f.setWidth v).setWidth u) = type.value n)) ∧
    (∀ (w v : Nat) (type : IntType) (n : BitVec type.width), w ≤ v →
      Field.keep w v type n = (Field.ofMachine w type n).map (·.setWidth v)) ∧
    (∀ (w p : Nat) (f : BitVec w) (word : BitVec 32),
      (∀ i, i < p ∨ p + w ≤ i → (word ||| Field.placed f p).getLsbD i = word.getLsbD i) ∧
      (p + w ≤ 32 → (∀ i, p ≤ i → i < p + w → word.getLsbD i = false) →
        (word ||| Field.placed f p).extractLsb' p w = f)) ∧
    ∀ i : Instruction, i.packed = i.encode := by
  refine ⟨?_, ?_, ?_, Instruction.packed_eq_encode⟩
  · intro w type n
    refine ⟨Field.ofMachine_eq_tooSmall_iff, Field.ofMachine_eq_tooLarge_iff, ?_⟩
    intro hlow hhigh
    obtain ⟨f, hok, hvalue⟩ := Field.exists_ofMachine_eq_ok hlow hhigh
    refine ⟨f, hok, f.isLt, hvalue, ?_⟩
    intro v u hkept hwider
    constructor
    · rw [Field.value_setWidth f hkept, hvalue]
    · rw [Field.value_setWidth _ hwider, BitVec.toNat_setWidth_of_le hkept, hvalue]
  · intro w v type n h
    exact Field.keep_eq h
  · intro w p f word
    constructor
    · intro i h
      exact Field.getLsbD_or_placed word f h
    · intro hroom hblank
      exact Field.extractLsb'_or_placed word f hroom hblank

/-- A number whose lowest 32 bits would fit, a negative byte for a field that fills its integer, and
the largest number of 12 bits. -/
theorem field_conversions_exact_edges :
    Field.ofMachine 24 ⟨64, false⟩ 0x100000005 = .error .tooLarge ∧
      Field.keep 16 16 ⟨8, true⟩ 0xFF = .error .tooSmall ∧
      Field.ofMachine 12 ⟨16, true⟩ 0xFFF = .ok 0xFFF ∧
      (0xE0001000 ||| Field.placed (0xFFF : BitVec 12) 0).extractLsb' 0 12 = 0xFFF := by
  obtain ⟨hconversion, hkeep, hplaced, -⟩ := field_conversions_exact
  have hsmall : Field.ofMachine 16 ⟨8, true⟩ 0xFF = .error .tooSmall :=
    (hconversion 16 ⟨8, true⟩ 0xFF).1.mpr (by decide)
  obtain ⟨f, hok, -, hvalue, -⟩ :=
    (hconversion 12 ⟨16, true⟩ 0xFFF).2.2 (by decide) (by decide)
  have hnumber : IntType.value ⟨16, true⟩ 0xFFF = 4095 := by decide
  have hf : f = 0xFFF := by
    apply BitVec.eq_of_toNat_eq
    show f.toNat = 4095
    omega
  refine ⟨(hconversion 24 ⟨64, false⟩ 0x100000005).2.1.mpr (by decide), ?_, hf ▸ hok, ?_⟩
  · rw [hkeep 16 16 ⟨8, true⟩ 0xFF (by decide), hsmall]
    rfl
  · exact (hplaced 12 0 0xFFF 0xE0001000).2 (by decide) (by decide)

end ArmAssembly
