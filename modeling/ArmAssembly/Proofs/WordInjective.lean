import ArmAssembly.Machine.Encoding

set_option autoImplicit false

/-! # Words tell instructions apart

An instruction can be read off its word. The top eight of the 28 bits of an action tell its
class (`ActionClass.ofOpcode_bits`), and within a class the opcode tells the operation and the
form of the last operand, while each operand has bits of its own. Only the order and the
repetition of the registers of a stack instruction do not show in the word
(`encode_eq_iff_same`).
-/

namespace ArmAssembly

/-! ## Fields put together -/

theorem append_inj {v w : Nat} {a b : BitVec v} {c d : BitVec w} :
    a ++ c = b ++ d ↔ a = b ∧ c = d := by
  constructor
  · intro h
    have hhigh := congrArg (BitVec.extractLsb' w v) h
    have hlow := congrArg (BitVec.setWidth w) h
    rw [BitVec.extractLsb'_append_eq_left, BitVec.extractLsb'_append_eq_left] at hhigh
    rw [BitVec.setWidth_append_eq_right, BitVec.setWidth_append_eq_right] at hlow
    exact ⟨hhigh, hlow⟩
  · rintro ⟨rfl, rfl⟩
    rfl

theorem setWidth_inj {v w : Nat} (h : v ≤ w) {a b : BitVec v} :
    a.setWidth w = b.setWidth w ↔ a = b := by
  constructor
  · intro hab
    have := congrArg (BitVec.setWidth v) hab
    simpa [BitVec.setWidth_setWidth_of_le _ h] using this
  · rintro rfl
    rfl

theorem ofBool_inj {a b : Bool} : BitVec.ofBool a = BitVec.ofBool b ↔ a = b := by
  cases a <;> cases b <;> decide

theorem layout_inj {opcode opcode' : BitVec 8} {first first' destination destination' : BitVec 4}
    {operand operand' : BitVec 12} :
    layout opcode first destination operand = layout opcode' first' destination' operand' ↔
      ((opcode = opcode' ∧ first = first') ∧ destination = destination') ∧
        operand = operand' := by
  unfold layout
  rw [append_inj, append_inj, append_inj]

theorem Register.number_inj {a b : Register} : a.number = b.number ↔ a = b := by
  cases a
  cases b
  rw [Register.mk.injEq]

theorem RotatedByte.field_inj {a b : RotatedByte} : a.field = b.field ↔ a = b := by
  cases a
  cases b
  rw [field, field, append_inj, RotatedByte.mk.injEq]

/-! ## Register masks

A mask has a bit for each register, and it is set just if the register is in the list. Order and
repetition are lost here, and nowhere else. -/

theorem Register.getLsbD_maskBit (r : Register) (n : Nat) :
    r.maskBit.getLsbD n = decide (r.number.toNat = n) := by
  have hr : r.number.toNat < 16 := r.number.isLt
  by_cases h : r.number.toNat = n
  · subst h
    simp [maskBit, hr]
  · have hbit : n < 16 → r.number.toNat ≤ n → n - r.number.toNat ≠ 0 := by omega
    simpa [maskBit, h] using hbit

theorem Register.getLsbD_foldl (registers : List Register) (bits : BitVec 16) (n : Nat) :
    (registers.foldl (fun bits r => bits ||| r.maskBit) bits).getLsbD n = true ↔
      bits.getLsbD n = true ∨ ∃ r ∈ registers, r.number.toNat = n := by
  induction registers generalizing bits with
  | nil => simp
  | cons r registers ih =>
      rw [List.foldl_cons, ih]
      simp [getLsbD_maskBit, or_assoc]

/-- Bit `n` of a mask is set just if register `n` is in the list. -/
theorem Register.getLsbD_mask (registers : List Register) (n : Nat) :
    (mask registers).getLsbD n = true ↔ ∃ r ∈ registers, r.number.toNat = n := by
  rw [mask, getLsbD_foldl]
  simp

/-- A mask knows which registers are in the list, and nothing else. -/
theorem Register.mask_eq_iff (registers others : List Register) :
    mask registers = mask others ↔ ∀ r, r ∈ registers ↔ r ∈ others := by
  have hmem : ∀ (r : Register) (l : List Register),
      r ∈ l ↔ (mask l).getLsbD r.number.toNat = true := by
    intro r l
    rw [getLsbD_mask]
    constructor
    · intro h
      exact ⟨r, h, rfl⟩
    · rintro ⟨s, hs, heq⟩
      have hsr : s = r := Register.number_inj.mp (BitVec.eq_of_toNat_eq heq)
      exact hsr ▸ hs
  constructor
  · intro h r
    rw [hmem, hmem, h]
  · intro h
    apply BitVec.eq_of_getLsbD_eq
    intro n hn
    rw [Bool.eq_iff_iff, getLsbD_mask, getLsbD_mask]
    simp only [h]

/-! ## Opcodes

The opcodes of arithmetic, compare and transfer instructions hold one bit for the form of the
last operand. Here they are put together from their parts, that bit among them. -/

/-- The operand is a register. -/
def Operand.isRegister {α : Type} : Operand α → Bool
  | immediate _ => false
  | register _ => true

theorem Operand.field_inj {α : Type} (bits : α → BitVec 12)
    (hbits : ∀ v w, bits v = bits w → v = w) {a b : Operand α}
    (hform : a.isRegister = b.isRegister) : a.field bits = b.field bits ↔ a = b := by
  cases a with
  | immediate v =>
      cases b with
      | immediate w =>
          rw [immediate.injEq]
          exact ⟨hbits v w, congrArg bits⟩
      | register s => cases hform
  | register r =>
      cases b with
      | immediate w => cases hform
      | register s =>
          rw [register.injEq, ← Register.number_inj]
          exact setWidth_inj (by decide)

/-- The four bits that tell an arithmetic operation. -/
def Arithmetic.code : Arithmetic → BitVec 4
  | and => 0x0
  | sub => 0x2
  | add => 0x4
  | orr => 0xC

theorem Arithmetic.code_inj {a b : Arithmetic} : a.code = b.code ↔ a = b := by
  cases a <;> cases b <;> decide

/-- The opcode of an arithmetic instruction. -/
def arithmeticOpcode (operation : Arithmetic) (setFlags isRegister : Bool) : BitVec 8 :=
  0b00#2 ++ BitVec.ofBool (!isRegister) ++ operation.code ++ BitVec.ofBool setFlags

theorem arithmeticOpcode_inj {operation operation' : Arithmetic}
    {setFlags setFlags' isRegister isRegister' : Bool} :
    arithmeticOpcode operation setFlags isRegister
        = arithmeticOpcode operation' setFlags' isRegister' ↔
      (isRegister = isRegister' ∧ operation = operation') ∧ setFlags = setFlags' := by
  constructor
  · intro h
    obtain ⟨hrest, hflags⟩ := append_inj.mp h
    simp only [append_inj, ofBool_inj, Arithmetic.code_inj, Bool.not_inj_iff, true_and] at hrest
    exact ⟨hrest, ofBool_inj.mp hflags⟩
  · rintro ⟨⟨rfl, rfl⟩, rfl⟩
    rfl

theorem Action.bits_arithmetic (operation : Arithmetic) (setFlags : Bool)
    (destination first : Register) (second : Operand RotatedByte) :
    (arithmetic operation setFlags destination first second).bits
      = layout (arithmeticOpcode operation setFlags second.isRegister) first.number
          destination.number (second.field RotatedByte.field) := by
  -- the form bit is set in the opcode of each operation, and a register clears it
  have himmediate : ∀ operation setFlags,
      Arithmetic.opcode operation ||| (BitVec.ofBool setFlags).setWidth 8
        = arithmeticOpcode operation setFlags false := by
    rintro (_ | _ | _ | _) (_ | _) <;> decide
  have hregister : ∀ operation setFlags,
      (Arithmetic.opcode operation &&& ~~~operandFormBit) ||| (BitVec.ofBool setFlags).setWidth 8
        = arithmeticOpcode operation setFlags true := by
    rintro (_ | _ | _ | _) (_ | _) <;> decide
  cases second with
  | immediate value => rw [bits, Operand.opcode, himmediate, Operand.isRegister]
  | register source => rw [bits, Operand.opcode, hregister, Operand.isRegister]

/-- The opcode of a compare. -/
def compareForm (isRegister : Bool) : BitVec 8 :=
  0b00#2 ++ BitVec.ofBool (!isRegister) ++ 0b10101#5

theorem compareForm_inj {isRegister isRegister' : Bool} :
    compareForm isRegister = compareForm isRegister' ↔ isRegister = isRegister' := by
  cases isRegister <;> cases isRegister' <;> decide

theorem Action.bits_compare (first : Register) (second : Operand (BitVec 12)) :
    (compare first second).bits
      = layout (compareForm second.isRegister) first.number 0 (second.field id) := by
  have himmediate : compareOpcode = compareForm false := by decide
  have hregister : compareOpcode &&& ~~~operandFormBit = compareForm true := by decide
  cases second with
  | immediate value => rw [bits, Operand.opcode, himmediate, Operand.isRegister]
  | register source => rw [bits, Operand.opcode, hregister, Operand.isRegister]

/-- The opcode of a transfer with the bit for the form of its offset in its place. -/
def transferOpcode (kind : TransferKind) (indexing : Indexing) (isRegister : Bool) : BitVec 8 :=
  0b01#2 ++ BitVec.ofBool isRegister ++ BitVec.ofBool indexing.before
    ++ BitVec.ofBool indexing.upward ++ BitVec.ofBool (kind = .loadByte)
    ++ BitVec.ofBool indexing.writeBack ++ BitVec.ofBool (kind ≠ .store)

theorem transferOpcode_inj {kind kind' : TransferKind} {indexing indexing' : Indexing}
    {isRegister isRegister' : Bool} :
    transferOpcode kind indexing isRegister = transferOpcode kind' indexing' isRegister' ↔
      (isRegister = isRegister' ∧ kind = kind') ∧ indexing = indexing' := by
  obtain ⟨before, upward, writeBack⟩ := indexing
  obtain ⟨before', upward', writeBack'⟩ := indexing'
  constructor
  · intro h
    obtain ⟨hrest, hload⟩ := append_inj.mp h
    simp only [append_inj, ofBool_inj, true_and] at hrest
    obtain ⟨⟨⟨⟨rfl, rfl⟩, rfl⟩, hbyte⟩, rfl⟩ := hrest
    have hkind : kind = kind' := by
      revert hload hbyte
      cases kind <;> cases kind' <;> decide
    exact ⟨⟨rfl, hkind⟩, rfl⟩
  · rintro ⟨⟨rfl, rfl⟩, hindexing⟩
    rw [hindexing]

theorem Action.bits_transfer (kind : TransferKind) (indexing : Indexing)
    (destination base : Register) (offset : Operand (BitVec 12)) :
    (transfer kind indexing destination base offset).bits
      = layout (transferOpcode kind indexing offset.isRegister) base.number destination.number
          (offset.field id) := by
  obtain ⟨before, upward, writeBack⟩ := indexing
  cases offset with
  | immediate value =>
      have hopcode : kind.opcode ⟨before, upward, writeBack⟩ ||| 0
          = transferOpcode kind ⟨before, upward, writeBack⟩ false := by
        revert kind before upward writeBack
        rintro (_ | _ | _) (_ | _) (_ | _) (_ | _) <;> decide
      exact congrArg (fun opcode => layout opcode base.number destination.number value) hopcode
  | register source =>
      have hopcode : kind.opcode ⟨before, upward, writeBack⟩ ||| operandFormBit
          = transferOpcode kind ⟨before, upward, writeBack⟩ true := by
        revert kind before upward writeBack
        rintro (_ | _ | _) (_ | _) (_ | _) (_ | _) <;> decide
      exact congrArg
        (fun opcode => layout opcode base.number destination.number (source.number.setWidth 12))
        hopcode

/-! ## Classes of actions -/

/-- The classes of actions, one for each constructor. -/
inductive ActionClass where
  | branch
  | arithmetic
  | compare
  | moveWide
  | moveRegister
  | transfer
  | stack
deriving DecidableEq

/-- The class of an action. -/
def Action.actionClass : Action → ActionClass
  | branch _ _ => .branch
  | arithmetic _ _ _ _ _ => .arithmetic
  | compare _ _ => .compare
  | moveWide _ _ _ => .moveWide
  | moveRegister _ _ => .moveRegister
  | transfer _ _ _ _ _ => .transfer
  | stack _ _ => .stack

/-- The class that the top eight bits of an action stand for. -/
def ActionClass.ofOpcode (opcode : BitVec 8) : ActionClass :=
  if opcode.extractLsb' 4 4 = 0xA ∨ opcode.extractLsb' 4 4 = 0xB then .branch
  else if opcode = 0x92 ∨ opcode = 0x8B then .stack
  else if opcode.extractLsb' 6 2 = 0b01 then .transfer
  else if opcode = 0x1A then .moveRegister
  else if opcode = 0x15 ∨ opcode = 0x35 then .compare
  else if opcode = 0x30 ∨ opcode = 0x34 then .moveWide
  else .arithmetic

theorem extractLsb'_layout (opcode : BitVec 8) (first destination : BitVec 4)
    (operand : BitVec 12) :
    (layout opcode first destination operand).extractLsb' 20 8 = opcode := by
  unfold layout
  rw [BitVec.extractLsb'_append_eq_of_le (by decide),
    BitVec.extractLsb'_append_eq_of_le (by decide)]
  exact BitVec.extractLsb'_append_eq_left

/-- The upper half of the top eight bits are the top four. -/
theorem extractLsb'_top (nibble : BitVec 4) (offset : BitVec 24) :
    ((nibble ++ offset).extractLsb' 20 8).extractLsb' 4 4 = nibble := by
  ext i hi
  simp only [BitVec.getElem_extractLsb', BitVec.getLsbD_extractLsb', BitVec.getLsbD_append]
  grind

/-- The top eight bits of an action tell its class. -/
theorem ActionClass.ofOpcode_bits (a : Action) :
    ofOpcode (a.bits.extractLsb' 20 8) = a.actionClass := by
  -- in each case the opcode is taken out of the bits, and all its values are tried
  cases a with
  | branch link offset =>
      refine if_pos ?_
      rw [Action.bits, extractLsb'_top]
      cases link <;> decide
  | arithmetic operation setFlags destination first second =>
      rw [Action.bits_arithmetic, extractLsb'_layout, Action.actionClass]
      generalize second.isRegister = isRegister
      cases operation <;> cases setFlags <;> cases isRegister <;> decide
  | compare first second =>
      rw [Action.bits_compare, extractLsb'_layout, Action.actionClass]
      generalize second.isRegister = isRegister
      cases isRegister <;> decide
  | moveWide half destination value =>
      rw [Action.bits, extractLsb'_layout]
      cases half <;> rfl
  | moveRegister destination source =>
      rw [Action.bits, extractLsb'_layout]
      rfl
  | transfer kind indexing destination base offset =>
      rw [Action.bits_transfer, extractLsb'_layout, Action.actionClass]
      generalize offset.isRegister = isRegister
      obtain ⟨before, upward, writeBack⟩ := indexing
      cases kind <;> cases before <;> cases upward <;> cases writeBack <;> cases isRegister <;>
        decide
  | stack kind registers =>
      rw [Action.actionClass]
      have hopcode : (Action.stack kind registers).bits.extractLsb' 20 8
          = kind.opcode.extractLsb' 4 8 := BitVec.extractLsb'_append_eq_of_le (by decide)
      rw [hopcode]
      cases kind <;> decide

/-! ## Actions and instructions -/

/-- Two actions are the same, except that a list of registers counts as the set of them. -/
def Action.Same : Action → Action → Prop
  | stack kind registers, stack kind' registers' =>
    kind = kind' ∧ ∀ r, r ∈ registers ↔ r ∈ registers'
  | a, b => a = b

/-- The bits of a 16-bit move hold its value in two parts. -/
theorem extractLsb'_inj {v w : BitVec 16} :
    v.extractLsb' 12 4 = w.extractLsb' 12 4 ∧ v.extractLsb' 0 12 = w.extractLsb' 0 12 ↔
      v = w := by
  have hwhole : ∀ x : BitVec (4 + 12), x.extractLsb' 12 4 ++ x.extractLsb' 0 12 = x :=
    fun x => BitVec.extractLsb'_append_extractLsb'
  constructor
  · rintro ⟨hhigh, hlow⟩
    calc v = v.extractLsb' 12 4 ++ v.extractLsb' 0 12 := (hwhole v).symm
      _ = w.extractLsb' 12 4 ++ w.extractLsb' 0 12 := by rw [hhigh, hlow]
      _ = w := hwhole w
  · rintro rfl
    exact ⟨rfl, rfl⟩

/-- The bits of an action determine it, up to the order and repetition of registers. -/
theorem Action.same_of_bits {a b : Action} (h : a.bits = b.bits) : a.Same b := by
  -- the classes agree, so only actions of one constructor are to be compared
  have hclass : a.actionClass = b.actionClass := by
    rw [← ActionClass.ofOpcode_bits, ← ActionClass.ofOpcode_bits, h]
  cases a with
  | branch link offset =>
      cases b with
      | branch link' offset' =>
          obtain ⟨hlink, rfl⟩ := append_inj.mp h
          have hsame : link = link' := by
            revert hlink
            cases link <;> cases link' <;> decide
          exact hsame ▸ rfl
      | _ => cases hclass
  | arithmetic operation setFlags destination first second =>
      cases b with
      | arithmetic operation' setFlags' destination' first' second' =>
          rw [bits_arithmetic, bits_arithmetic, layout_inj, arithmeticOpcode_inj,
            Register.number_inj, Register.number_inj] at h
          obtain ⟨⟨⟨⟨⟨hform, rfl⟩, rfl⟩, rfl⟩, rfl⟩, hsecond⟩ := h
          rw [Operand.field_inj _ (fun _ _ => RotatedByte.field_inj.mp) hform] at hsecond
          exact hsecond ▸ rfl
      | _ => cases hclass
  | compare first second =>
      cases b with
      | compare first' second' =>
          rw [bits_compare, bits_compare, layout_inj, compareForm_inj, Register.number_inj] at h
          obtain ⟨⟨⟨hform, rfl⟩, -⟩, hsecond⟩ := h
          rw [Operand.field_inj id (fun _ _ => id) hform] at hsecond
          exact hsecond ▸ rfl
      | _ => cases hclass
  | moveWide half destination value =>
      cases b with
      | moveWide half' destination' value' =>
          obtain ⟨⟨⟨hhalf, hhigh⟩, hdestination⟩, hlow⟩ := layout_inj.mp h
          have hsame : half = half' := by
            revert hhalf
            cases half <;> cases half' <;> decide
          rw [hsame, Register.number_inj.mp hdestination, extractLsb'_inj.mp ⟨hhigh, hlow⟩]
          rfl
      | _ => cases hclass
  | moveRegister destination source =>
      cases b with
      | moveRegister destination' source' =>
          obtain ⟨⟨-, hdestination⟩, hsource⟩ := layout_inj.mp h
          rw [Register.number_inj.mp hdestination,
            Register.number_inj.mp ((setWidth_inj (by decide)).mp hsource)]
          rfl
      | _ => cases hclass
  | transfer kind indexing destination base offset =>
      cases b with
      | transfer kind' indexing' destination' base' offset' =>
          rw [bits_transfer, bits_transfer, layout_inj, transferOpcode_inj,
            Register.number_inj, Register.number_inj] at h
          obtain ⟨⟨⟨⟨⟨hform, rfl⟩, rfl⟩, rfl⟩, rfl⟩, hoffset⟩ := h
          rw [Operand.field_inj id (fun _ _ => id) hform] at hoffset
          exact hoffset ▸ rfl
      | _ => cases hclass
  | stack kind registers =>
      cases b with
      | stack kind' registers' =>
          obtain ⟨hkind, hmask⟩ := append_inj.mp h
          refine ⟨?_, (Register.mask_eq_iff _ _).mp hmask⟩
          revert hkind
          cases kind <;> cases kind' <;> decide
      | _ => cases hclass

theorem Action.bits_of_same {a b : Action} (h : a.Same b) : a.bits = b.bits := by
  unfold Same at h
  split at h
  · next kind registers kind' registers' =>
      obtain ⟨rfl, hregisters⟩ := h
      have hmask := (Register.mask_eq_iff registers registers').mpr hregisters
      show kind.opcode ++ Register.mask registers = kind.opcode ++ Register.mask registers'
      rw [hmask]
  · rw [h]

/-- Two instructions are the same, except that a list of registers counts as the set of
them. -/
def Instruction.Same (i j : Instruction) : Prop :=
  i.condition = j.condition ∧ i.action.Same j.action

theorem Condition.nibble_inj {c d : Condition} : c.nibble = d.nibble ↔ c = d := by
  cases c <;> cases d <;> decide

/-- **Encoding loses nothing.** Two instructions have one word just if they are the same but
for the order and the repetition of the registers of a stack instruction; and the condition
stands in the top four bits of every word. -/
theorem encode_eq_iff_same (i j : Instruction) :
    (i.encode = j.encode ↔ i.Same j) ∧ i.encode.extractLsb' 28 4 = i.condition.nibble := by
  refine ⟨?_, BitVec.extractLsb'_append_eq_left⟩
  unfold Instruction.encode Instruction.Same
  rw [append_inj, Condition.nibble_inj]
  constructor
  · rintro ⟨hcondition, hbits⟩
    exact ⟨hcondition, Action.same_of_bits hbits⟩
  · rintro ⟨hcondition, hsame⟩
    exact ⟨hcondition, Action.bits_of_same hsame⟩

end ArmAssembly
