import ArmAssembly.Machine.Disassembly
import ArmAssembly.Proofs.Mnemonics
import ArmAssembly.Proofs.Numerals
import ArmAssembly.Proofs.RotatedBytes
import ArmAssembly.Proofs.Scanning
import ArmAssembly.Proofs.Statements
import ArmAssembly.Proofs.TwoPass

set_option autoImplicit false

/-! # Disassembly is read back

The text of an instruction is a mnemonic, flags and operands, and scanning cuts it into just
these parts (`Instruction.scans_text`). The parts are a phrase that asks for the instruction
again (`Instruction.statementPhrase_of_views`). So the lines of a disassembly are read back as the
instructions that were written, and their image is the encoding of the instructions one after
the other (`assembleSource_disassembly`).

Left out are the instructions whose text says something else or nothing: branches, which are
written with a signed offset, stack instructions without registers, and constants in a form that
the assembler would not choose.
-/

namespace ArmAssembly

/-! ## The parts of an instruction

An instruction is written in one go, but read as a mnemonic, flags and operands. So its text is
first told by these parts, and shown to be the same text. -/

/-- The base name of an arithmetic operation. -/
def Arithmetic.base : Arithmetic → BaseName
  | and => .and
  | sub => .sub
  | add => .add
  | orr => .orr

/-- The base name of a 16-bit move. -/
def Half.base : Half → BaseName
  | bottom => .moveWide
  | top => .moveTop

/-- The base name of a transfer. -/
def TransferKind.base : TransferKind → BaseName
  | store => .store
  | load => .load
  | loadByte => .loadByte

/-- The base name of a stack instruction. -/
def StackKind.base : StackKind → BaseName
  | push => .push
  | pop => .pop

/-- The suffix that the form of a last operand asks for. -/
def Operand.suffix {α : Type} : Operand α → Suffix
  | immediate _ => .immediate
  | register _ => .register

/-- The letters of the flags of a transfer. -/
def Indexing.letters (indexing : Indexing) : String :=
  flagText indexing.before "P" ++ flagText indexing.upward "U" ++ flagText indexing.writeBack "W"

/-- Flags with a blank and a dash in front of them, if there are any. -/
def flagsText (letters : String) : String :=
  if letters = "" then "" else " -" ++ letters

namespace Action

/-- The base name of an action and the suffix of its mnemonic. -/
def baseAndSuffix : Action → BaseName × Option Suffix
  | branch link _ => (if link then .branchLink else .branch, none)
  | arithmetic operation _ _ _ second => (operation.base, some second.suffix)
  | compare _ second => (.compare, some second.suffix)
  | moveWide half _ _ => (half.base, some .immediate)
  | moveRegister _ _ => (.move, some .register)
  | transfer kind _ _ _ offset => (kind.base, some offset.suffix)
  | stack kind _ => (kind.base, none)

/-- What stands behind the mnemonic. -/
def operandText : Action → String
  | branch _ offset => " " ++ signedText offset.toInt
  | arithmetic _ setFlags destination first second =>
    flagsText (flagText setFlags "S") ++ " " ++ destination.text ++ ", " ++ first.text ++ ", "
      ++ second.text RotatedByte.text
  | compare first second => " " ++ first.text ++ ", " ++ second.text Field.text
  | moveWide _ destination value => " " ++ destination.text ++ ", #" ++ Field.text value
  | moveRegister destination source => " " ++ destination.text ++ ", " ++ source.text
  | transfer _ indexing destination base offset =>
    flagsText indexing.letters ++ " " ++ destination.text ++ ", " ++ base.text ++ ", "
      ++ offset.text Field.text
  | stack _ registers => " " ++ Register.listText registers

end Action

/-- The mnemonic of an instruction. -/
def Instruction.mnemonic (i : Instruction) : Mnemonic :=
  ⟨i.action.baseAndSuffix.1, i.condition, i.action.baseAndSuffix.2⟩

theorem flagsText_setFlags (setFlags : Bool) :
    flagText setFlags " -S" = flagsText (flagText setFlags "S") := by
  cases setFlags <;> decide

theorem Indexing.text_eq (indexing : Indexing) : indexing.text = flagsText indexing.letters := by
  obtain ⟨before, upward, writeBack⟩ := indexing
  cases before <;> cases upward <;> cases writeBack <;> decide

theorem Arithmetic.name_eq (operation : Arithmetic) : operation.name = operation.base.text := by
  cases operation <;> rfl

theorem Half.name_eq (half : Half) : half.name = half.base.text := by
  cases half <;> rfl

theorem TransferKind.name_eq (kind : TransferKind) : kind.name = kind.base.text := by
  cases kind <;> rfl

theorem StackKind.name_eq (kind : StackKind) : kind.name = kind.base.text := by
  cases kind <;> rfl

theorem Operand.letter_eq {α : Type} (operand : Operand α) :
    operand.letter = operand.suffix.letter := by
  cases operand <;> rfl

/-- The text of an instruction is the mnemonic and what stands behind it. -/
theorem Instruction.text_eq (i : Instruction) :
    i.text = i.mnemonic.text ++ i.action.operandText := by
  obtain ⟨condition, action⟩ := i
  -- as lists of characters, so that it does not matter where a text was cut into literals
  rw [← String.toList_inj]
  cases action with
  | branch link offset =>
      cases link <;>
        simp [text, mnemonic, Action.baseAndSuffix, Action.operandText, Mnemonic.text,
          Mnemonic.endingText, BaseName.text]
  | arithmetic operation setFlags destination first second =>
      simp [text, mnemonic, Action.baseAndSuffix, Action.operandText, Mnemonic.text,
        Mnemonic.endingText, Arithmetic.name_eq, Operand.letter_eq, flagsText_setFlags]
  | compare first second =>
      simp [text, mnemonic, Action.baseAndSuffix, Action.operandText, Mnemonic.text,
        Mnemonic.endingText, BaseName.text, Operand.letter_eq]
  | moveWide half destination value =>
      simp [text, mnemonic, Action.baseAndSuffix, Action.operandText, Mnemonic.text,
        Mnemonic.endingText, Half.name_eq, Suffix.letter]
  | moveRegister destination source =>
      simp [text, mnemonic, Action.baseAndSuffix, Action.operandText, Mnemonic.text,
        Mnemonic.endingText, BaseName.text, Suffix.letter]
  | transfer kind indexing destination base offset =>
      simp [text, mnemonic, Action.baseAndSuffix, Action.operandText, Mnemonic.text,
        Mnemonic.endingText, TransferKind.name_eq, Operand.letter_eq, Indexing.text_eq]
  | stack kind registers =>
      simp [text, mnemonic, Action.baseAndSuffix, Action.operandText, Mnemonic.text,
        Mnemonic.endingText, StackKind.name_eq]

/-! ## Scanning an instruction

The views of an instruction are the tokens that its text is meant to be cut into. Each part is
scanned on its own, in front of whatever ends it, and the parts are put together from the last one
to the first, since scanning a part asks for what stands behind it. -/

/-- A comma without its place. -/
def commaView : View := (.comma, ",")

/-- The name of a register without its place. -/
def Register.view (r : Register) : View := (.word, r.text)

/-- The names of registers with commas between them. -/
def Register.listViews : List Register → List View
  | [] => []
  | [r] => [r.view]
  | r :: s :: registers => r.view :: commaView :: listViews (s :: registers)

/-- A last operand without its place. -/
def Operand.view {α : Type} (number : α → String) : Operand α → View
  | immediate value => (.hexNumber, number value)
  | register source => source.view

/-- Flags without their place. -/
def flagViews (letters : String) : List View :=
  if letters = "" then [] else [(.dash, "-"), (.word, letters)]

/-- The tokens behind the mnemonic, without their places. -/
def Action.views : Action → List View
  | branch _ _ => []
  | arithmetic _ setFlags destination first second =>
    flagViews (flagText setFlags "S") ++
      [destination.view, commaView, first.view, commaView, second.view RotatedByte.text]
  | compare first second => [first.view, commaView, second.view Field.text]
  | moveWide _ destination value => [destination.view, commaView, (.hexNumber, Field.text value)]
  | moveRegister destination source => [destination.view, commaView, source.view]
  | transfer _ indexing destination base offset =>
    flagViews indexing.letters ++
      [destination.view, commaView, base.view, commaView, offset.view Field.text]
  | stack _ registers =>
    (.openBracket, "[") :: (Register.listViews registers ++ [(.closeBracket, "]")])

/-- The tokens of an instruction, without their places. -/
def Instruction.views (i : Instruction) : List View :=
  (.word, i.mnemonic.text) :: i.action.views

namespace Register

theorem text_toList (r : Register) : r.text.toList = 'R' :: Nat.toDigits 10 r.number.toNat := by
  simp [text, toString, Nat.repr_eq_ofList_toDigits]

theorem digits_text (r : Register) :
    (Nat.toDigits 10 r.number.toNat).all Char.isDigit = true ∧
      numeralValue 10 (Nat.toDigits 10 r.number.toNat) = r.number.toNat := by
  have hall : ∀ n : Fin 16, (Nat.toDigits 10 n.val).all Char.isDigit = true ∧
      numeralValue 10 (Nat.toDigits 10 n.val) = n.val := by decide
  exact hall ⟨r.number.toNat, r.number.isLt⟩

theorem isWord_text (r : Register) : isWord r.text.toList = true := by
  rw [text_toList, isWord, Bool.and_eq_true]
  refine ⟨rfl, List.all_eq_true.mpr fun c hc => ?_⟩
  rw [Char.isAlphanum, List.all_eq_true.mp r.digits_text.1 c hc, Bool.or_true]

theorem opens_text (r : Register) : Opens r.text.toList := by
  rw [text_toList]
  exact opens_cons _ rfl

end Register

namespace Scans

variable {text rest : List Char} {views : List View}

theorem register_append (r : Register) (hbreaks : Breaks Char.isAlphanum (text ++ rest))
    (h : Scans text views rest) : Scans (r.text.toList ++ text) (r.view :: views) rest :=
  word_append r.isWord_text hbreaks h

theorem register (r : Register) (hrest : Breaks Char.isAlphanum rest) :
    Scans r.text.toList [r.view] rest := by
  have hscan : Scans (r.text.toList ++ []) [r.view] rest := register_append r hrest (.nil rest)
  rw [List.append_nil] at hscan
  exact hscan

/-- A comma and the blank behind it. -/
theorem comma_cons (hopens : Opens text) (h : Scans text views rest) :
    Scans (',' :: ' ' :: text) (commaView :: views) rest :=
  mark_cons rfl (blank_cons rfl hopens h)

/-- Flags and the blank behind them. -/
theorem flags_append {letters : String} (hletters : letters = "" ∨ isWord letters.toList = true)
    (hopens : Opens text) (h : Scans text views rest) :
    Scans ((flagsText letters).toList ++ ' ' :: text) (flagViews letters ++ views) rest := by
  have hblank := blank_cons (c := ' ') rfl hopens h
  unfold flagsText flagViews
  by_cases hempty : letters = ""
  · rw [if_pos hempty, if_pos hempty]
    exact hblank
  · rw [if_neg hempty, if_neg hempty, String.toList_append, List.append_assoc]
    have hword := hletters.resolve_left hempty
    exact blank_cons rfl (opens_cons _ rfl)
      (mark_cons rfl (word_append hword (breaks_cons _ rfl) hblank))

/-- A number behind the mark. -/
theorem number_append (n : Nat) (hrest : Breaks Char.isAlphanum rest) :
    Scans ("#" ++ ("0x" ++ upperHex n)).toList [(.hexNumber, "0x" ++ upperHex n)] rest := by
  have hscan := scans_hexNumber (upperHex_ne_nil n) (isHexDigit_upperHex n)
    (hrest.mono fun _ => isAlphanum_of_isHexDigit)
  have hlexeme : String.ofList ('0' :: 'x' :: (upperHex n).toList) = "0x" ++ upperHex n := by
    rw [← String.toList_inj, String.toList_ofList, String.toList_append]
    rfl
  rw [hlexeme] at hscan
  rw [String.toList_append, String.toList_append]
  exact hscan

theorem operand {α : Type} {number : α → String} {value : α → Nat}
    (hnumber : ∀ a, number a = "0x" ++ upperHex (value a)) (operand : Operand α)
    (hrest : Breaks Char.isAlphanum rest) :
    Scans (operand.text number).toList [operand.view number] rest := by
  cases operand with
  | immediate a =>
      rw [Operand.text, Operand.view, hnumber]
      exact number_append _ hrest
  | register r => exact register r hrest

theorem registers {registers : List Register} (hne : registers ≠ [])
    (hrest : Breaks Char.isAlphanum rest) :
    Scans (", ".intercalate (registers.map Register.text)).toList (Register.listViews registers)
      rest := by
  fun_induction Register.listViews registers with
  | case1 => exact absurd rfl hne
  | case2 r =>
      rw [List.map_singleton, String.intercalate_singleton]
      exact register r hrest
  | case3 r s registers ih =>
      have hscan := ih (List.cons_ne_nil _ _)
      have hopens : Opens (", ".intercalate ((s :: registers).map Register.text)).toList :=
        s.opens_text.intercalate ", " _
      simp only [List.map_cons, String.intercalate_cons_cons, String.toList_append,
        List.append_assoc] at hscan hopens ⊢
      exact register_append r (breaks_cons _ rfl) (comma_cons hopens hscan)

end Scans

theorem Operand.opens_text {α : Type} (number : α → String) (operand : Operand α) :
    Opens (operand.text number).toList := by
  cases operand with
  | immediate a =>
      rw [Operand.text, String.toList_append]
      exact opens_cons _ rfl
  | register r => exact r.opens_text

theorem isWord_flagText (setFlags : Bool) :
    flagText setFlags "S" = "" ∨ isWord (flagText setFlags "S").toList = true := by
  cases setFlags <;> decide

theorem Indexing.isWord_letters (indexing : Indexing) :
    indexing.letters = "" ∨ isWord indexing.letters.toList = true := by
  obtain ⟨before, upward, writeBack⟩ := indexing
  cases before <;> cases upward <;> cases writeBack <;> decide

theorem RotatedByte.text_eq (b : RotatedByte) : b.text = "0x" ++ upperHex b.constant.toNat := rfl

theorem Field.text_eq {w : Nat} (field : BitVec w) :
    Field.text field = "0x" ++ upperHex field.toNat := rfl

/-- What stands behind a mnemonic is cut into its parts. -/
theorem Action.scans_operandText {action : Action}
    (hbranch : ∀ link offset, action ≠ branch link offset)
    (hstack : ∀ kind, action ≠ stack kind []) {rest : List Char}
    (hrest : Breaks Char.isAlphanum rest) :
    Scans action.operandText.toList action.views rest := by
  -- in each case from the last operand to the first
  cases action with
  | branch link offset => exact absurd rfl (hbranch link offset)
  | arithmetic operation setFlags destination first second =>
      have hlast := Scans.operand RotatedByte.text_eq second hrest
      have hfirst := Scans.register_append first (breaks_cons _ rfl)
        (.comma_cons (second.opens_text _) hlast)
      have hregisters := Scans.register_append destination (breaks_cons _ rfl)
        (.comma_cons (first.opens_text.append _) hfirst)
      have hall := Scans.flags_append (isWord_flagText setFlags)
        (destination.opens_text.append _) hregisters
      simpa [operandText, views] using hall
  | compare first second =>
      have hlast := Scans.operand Field.text_eq second hrest
      have hall := Scans.blank_cons (c := ' ') rfl (first.opens_text.append _)
        (.register_append first (breaks_cons _ rfl) (.comma_cons (second.opens_text _) hlast))
      simpa [operandText, views] using hall
  | moveWide half destination value =>
      have hlast := Scans.number_append value.toNat hrest
      have hopens : Opens ("#" ++ ("0x" ++ upperHex value.toNat)).toList := by
        rw [String.toList_append]
        exact opens_cons _ rfl
      have hall := Scans.blank_cons (c := ' ') rfl (destination.opens_text.append _)
        (.register_append destination (breaks_cons _ rfl) (.comma_cons hopens hlast))
      simpa [operandText, views, Field.text_eq] using hall
  | moveRegister destination source =>
      have hlast := Scans.register source hrest
      have hall := Scans.blank_cons (c := ' ') rfl (destination.opens_text.append _)
        (.register_append destination (breaks_cons _ rfl) (.comma_cons source.opens_text hlast))
      simpa [operandText, views] using hall
  | transfer kind indexing destination base offset =>
      have hlast := Scans.operand Field.text_eq offset hrest
      have hbase := Scans.register_append base (breaks_cons _ rfl)
        (.comma_cons (offset.opens_text _) hlast)
      have hregisters := Scans.register_append destination (breaks_cons _ rfl)
        (.comma_cons (base.opens_text.append _) hbase)
      have hall := Scans.flags_append indexing.isWord_letters (destination.opens_text.append _)
        hregisters
      simpa [operandText, views] using hall
  | stack kind registers =>
      have hne : registers ≠ [] := by
        rintro rfl
        exact hstack kind rfl
      have hclose : Scans [']'] [(.closeBracket, "]")] rest := scans_mark rfl rest
      have hlist := (Scans.registers hne (breaks_cons _ rfl)).append hclose
      have hall := Scans.blank_cons (c := ' ') rfl (opens_cons _ rfl)
        (Scans.mark_cons (c := '[') rfl hlist)
      simpa [operandText, views, Register.listText] using hall

theorem isWord_append {u v : List Char} (hu : isWord u = true)
    (hv : v.all Char.isAlphanum = true) : isWord (u ++ v) = true := by
  cases u with
  | nil => cases hu
  | cons c cs =>
      rw [isWord, Bool.and_eq_true] at hu
      rw [List.cons_append, isWord, List.all_append, hu.1, hu.2, hv]
      rfl

theorem Mnemonic.isWord_text (m : Mnemonic) : isWord m.text.toList = true := by
  have hbase : isWord m.base.text.toList = true := by
    cases m.base <;> decide
  have hcondition : m.condition.text.toList.all Char.isAlphanum = true := by
    cases m.condition <;> decide
  have hsuffix : ((m.suffix.map Suffix.letter).getD "").toList.all Char.isAlphanum = true := by
    rcases m.suffix with _ | suffix
    · decide
    · cases suffix <;> decide
  rw [text, endingText, String.toList_append, String.toList_append]
  refine isWord_append hbase ?_
  rw [List.all_append, hcondition, hsuffix]
  rfl

/-- The instruction is written so that it can be read back: it is no branch, it names a register
if it is a stack instruction, and its constant has the form that is found for it. -/
def Instruction.IsReadable (i : Instruction) : Prop :=
  match i.action with
  | .branch _ _ => False
  | .arithmetic _ _ _ _ (.immediate constant) => ∃ n, RotatedByte.ofConstant? n = some constant
  | .stack _ registers => registers ≠ []
  | _ => True

/-- A mnemonic ends where the blank behind it stands. -/
theorem Action.breaks_operandText (action : Action) (rest : List Char) :
    Breaks Char.isAlphanum (action.operandText.toList ++ rest) := by
  have hflags (letters : String) (more : List Char) :
      Breaks Char.isAlphanum ((flagsText letters).toList ++ ' ' :: more) := by
    unfold flagsText
    by_cases hempty : letters = ""
    · rw [if_pos hempty]
      exact breaks_cons _ rfl
    · rw [if_neg hempty, String.toList_append]
      exact breaks_cons _ rfl
  cases action with
  | arithmetic operation setFlags destination first second =>
      simpa [operandText] using hflags (flagText setFlags "S") _
  | transfer kind indexing destination base offset =>
      simpa [operandText] using hflags indexing.letters _
  | branch | compare | moveWide | moveRegister | stack =>
      simpa [operandText] using breaks_cons _ rfl

theorem Instruction.IsReadable.ne_branch {i : Instruction} (hreadable : i.IsReadable) (link : Bool)
    (offset : BitVec 24) : i.action ≠ .branch link offset := by
  intro haction
  rw [IsReadable, haction] at hreadable
  exact hreadable

theorem Instruction.scans_text {i : Instruction} (hreadable : i.IsReadable) {rest : List Char}
    (hrest : Breaks Char.isAlphanum rest) : Scans i.text.toList i.views rest := by
  have hstack : ∀ kind, i.action ≠ .stack kind [] := by
    intro kind haction
    rw [IsReadable, haction] at hreadable
    exact hreadable rfl
  have hoperands := Action.scans_operandText hreadable.ne_branch hstack hrest
  rw [text_eq, String.toList_append]
  exact .word_append i.mnemonic.isWord_text (i.action.breaks_operandText rest) hoperands

/-! ## Reading an instruction -/

namespace Token

theorem register_of_view {t : Token} {r : Register} (h : t.view = r.view) :
    t.register = .ok r := by
  obtain ⟨hkind, hlexeme⟩ := Prod.mk.inj h
  refine register_eq_ok_iff.mpr ⟨hkind, 'R', Nat.toDigits 10 r.number.toNat, ?_, rfl,
    Nat.toDigits_ne_nil, r.digits_text.1, r.digits_text.2.symm⟩
  rw [hlexeme, r.text_toList]

theorem value_of_view {t : Token} {n : Nat} (h : t.view = (.hexNumber, "0x" ++ upperHex n)) :
    t.value = n := by
  obtain ⟨hkind, hlexeme⟩ := Prod.mk.inj h
  rw [value, digits, if_pos hkind, if_pos hkind, hlexeme, String.toList_append]
  exact numeralValue_upperHex n

theorem numberIn_of_view {t : Token} {place : OperandPlace} {bits : BitVec place.width}
    (h : t.view = (.hexNumber, Field.text bits)) : t.numberIn place = .ok bits := by
  have hnumeric : t.kind.isNumeric = true := by
    rw [(Prod.mk.inj h).1]
    rfl
  exact numberIn_eq_ok_iff.mpr ⟨hnumeric, (value_of_view h).symm⟩

theorem constant_of_view {t : Token} {b : RotatedByte} (h : t.view = (.hexNumber, b.text))
    {n : BitVec 32} (hn : RotatedByte.ofConstant? n = some b) : t.constant = .ok b := by
  have hnumeric : t.kind.isNumeric = true := by
    rw [(Prod.mk.inj h).1]
    rfl
  refine constant_eq_ok_iff.mpr ⟨hnumeric, n, ?_, hn⟩
  rw [value_of_view h, RotatedByte.constant_of_ofConstant? hn]

end Token

theorem lastPhrase_of_view {α : Type} {number : α → String} {convert : Token → Except Problem α}
    {t : Token} {operand : Operand α} (h : t.view = operand.view number)
    (hnumber : ∀ a, operand = .immediate a → t.view = (.hexNumber, number a) →
      convert t = .ok a) :
    LastPhrase (some operand.suffix) convert t operand := by
  cases operand with
  | immediate a => exact .immediate rfl (hnumber a rfl h)
  | register r => exact .register rfl (Token.register_of_view h)

theorem flagPhrase_of_views {accepted letters : String} {tokens : List Token}
    (h : tokens.map Token.view = flagViews letters)
    (known : (folded letters).all (accepted.toList.contains ·) = true) :
    FlagPhrase accepted tokens (folded letters) := by
  have hknown : ∀ c ∈ folded letters, c ∈ accepted.toList := fun c hc =>
    List.contains_iff_mem.mp (List.all_eq_true.mp known c hc)
  unfold flagViews at h
  by_cases hempty : letters = ""
  · rw [if_pos hempty, List.map_eq_nil_iff] at h
    subst h hempty
    exact .absent
  · rw [if_neg hempty] at h
    obtain ⟨dash, _, rfl, hdash, h⟩ := List.map_eq_cons_iff.mp h
    obtain ⟨word, _, rfl, hword, h⟩ := List.map_eq_cons_iff.mp h
    cases List.map_eq_nil_iff.mp h
    obtain ⟨hkind, rfl⟩ := Prod.mk.inj hword
    exact .present (Prod.mk.inj hdash).1 hkind hknown

theorem listPhrase_of_views {registers : List Register} {tokens : List Token}
    (hne : registers ≠ []) (h : tokens.map Token.view = Register.listViews registers) :
    ListPhrase Token.register tokens registers := by
  fun_induction Register.listViews registers generalizing tokens with
  | case1 => exact absurd rfl hne
  | case2 r =>
      obtain ⟨t, _, rfl, ht, h⟩ := List.map_eq_cons_iff.mp h
      cases List.map_eq_nil_iff.mp h
      exact .intro (Token.register_of_view ht) .done
  | case3 r s registers ih =>
      obtain ⟨t, _, rfl, ht, h⟩ := List.map_eq_cons_iff.mp h
      obtain ⟨comma, _, rfl, hcomma, h⟩ := List.map_eq_cons_iff.mp h
      cases ih (List.cons_ne_nil _ _) h with
      | intro item rest =>
          exact .intro (Token.register_of_view ht) (.more (Prod.mk.inj hcomma).1 item rest)

theorem known_flagText (setFlags : Bool) :
    (folded (flagText setFlags "S")).all ("S".toList.contains ·) = true ∧
      (folded (flagText setFlags "S")).contains 'S' = setFlags := by
  cases setFlags <;> decide

theorem Indexing.known_letters (indexing : Indexing) :
    (folded indexing.letters).all ("PUW".toList.contains ·) = true ∧
      (⟨(folded indexing.letters).contains 'P', (folded indexing.letters).contains 'U',
        (folded indexing.letters).contains 'W'⟩ : Indexing) = indexing := by
  obtain ⟨before, upward, writeBack⟩ := indexing
  cases before <;> cases upward <;> cases writeBack <;> decide

/-- The operands of an instruction are a phrase of its mnemonic. -/
theorem Instruction.operandsPhrase_of_views {i : Instruction} (hreadable : i.IsReadable)
    {tokens : List Token} (h : tokens.map Token.view = i.action.views) :
    OperandsPhrase i.mnemonic tokens (.instruction i) := by
  obtain ⟨condition, action⟩ := i
  -- the views of an action fix how many tokens there are, and what each of them is
  cases action with
  | branch link offset => exact hreadable.elim
  | arithmetic operation setFlags destination first second =>
      obtain ⟨flags, _, rfl, hflags, h⟩ := List.map_eq_append_iff.mp h
      simp only [List.map_eq_cons_iff, List.map_eq_nil_iff] at h
      obtain ⟨d, _, rfl, hd, c, _, rfl, hc, f, _, rfl, hf, c', _, rfl, hc', s, _, rfl, hs, rfl⟩ := h
      have hconstant (b : RotatedByte) (hb : second = .immediate b)
          (hview : s.view = (.hexNumber, b.text)) : s.constant = .ok b := by
        subst hb
        obtain ⟨n, hn⟩ := hreadable
        exact Token.constant_of_view hview hn
      obtain ⟨hknown, hset⟩ := known_flagText setFlags
      have hall : ArithmeticPhrase ⟨operation.base, condition, some second.suffix⟩ operation _ _ :=
        .intro (flagPhrase_of_views hflags hknown) (Token.register_of_view hd) (Prod.mk.inj hc).1
          (Token.register_of_view hf) (Prod.mk.inj hc').1 (lastPhrase_of_view hs hconstant)
      rw [hset] at hall
      cases operation <;> exact hall
  | compare first second =>
      simp only [Action.views, List.map_eq_cons_iff, List.map_eq_nil_iff] at h
      obtain ⟨f, _, rfl, hf, c, _, rfl, hc, s, _, rfl, hs, rfl⟩ := h
      exact ComparePhrase.intro (Token.register_of_view hf) (Prod.mk.inj hc).1
        (lastPhrase_of_view hs fun _ _ hview => Token.numberIn_of_view hview)
  | moveWide half destination value =>
      simp only [Action.views, List.map_eq_cons_iff, List.map_eq_nil_iff] at h
      obtain ⟨d, _, rfl, hd, c, _, rfl, hc, s, _, rfl, hs, rfl⟩ := h
      -- the halves have words of their own, which are read in different ways
      have hvalue : s.numberIn .moveImmediate = .ok value := Token.numberIn_of_view hs
      cases half with
      | bottom =>
          exact MovePhrase.immediate rfl (Token.register_of_view hd) (Prod.mk.inj hc).1 hvalue
      | top =>
          exact MoveTopPhrase.intro (.inr rfl) (Token.register_of_view hd) (Prod.mk.inj hc).1 hvalue
  | moveRegister destination source =>
      simp only [Action.views, List.map_eq_cons_iff, List.map_eq_nil_iff] at h
      obtain ⟨d, _, rfl, hd, c, _, rfl, hc, s, _, rfl, hs, rfl⟩ := h
      exact MovePhrase.register rfl (Token.register_of_view hd) (Prod.mk.inj hc).1
        (Token.register_of_view hs)
  | transfer kind indexing destination base offset =>
      obtain ⟨flags, _, rfl, hflags, h⟩ := List.map_eq_append_iff.mp h
      simp only [List.map_eq_cons_iff, List.map_eq_nil_iff] at h
      obtain ⟨d, _, rfl, hd, c, _, rfl, hc, b, _, rfl, hb, c', _, rfl, hc', s, _, rfl, hs, rfl⟩ := h
      obtain ⟨hknown, hindexing⟩ := indexing.known_letters
      have hall : TransferPhrase ⟨kind.base, condition, some offset.suffix⟩ kind _ _ :=
        .intro (flagPhrase_of_views hflags hknown) (Token.register_of_view hd) (Prod.mk.inj hc).1
          (Token.register_of_view hb) (Prod.mk.inj hc').1
          (lastPhrase_of_view hs fun _ _ hview => Token.numberIn_of_view hview)
      rw [hindexing] at hall
      cases kind <;> exact hall
  | stack kind registers =>
      obtain ⟨opening, _, rfl, hopening, h⟩ := List.map_eq_cons_iff.mp h
      obtain ⟨list, _, rfl, hlist, h⟩ := List.map_eq_append_iff.mp h
      simp only [List.map_eq_cons_iff, List.map_eq_nil_iff] at h
      obtain ⟨closing, _, rfl, hclosing, rfl⟩ := h
      have hall : StackPhrase ⟨kind.base, condition, none⟩ kind _ _ :=
        .intro rfl (Prod.mk.inj hopening).1 (listPhrase_of_views hreadable hlist)
          (Prod.mk.inj hclosing).1
      cases kind <;> exact hall

theorem Action.base_ne_branch {action : Action}
    (hbranch : ∀ link offset, action ≠ branch link offset) :
    action.baseAndSuffix.1 ≠ .branch ∧ action.baseAndSuffix.1 ≠ .branchLink := by
  cases action with
  | branch link offset => exact absurd rfl (hbranch link offset)
  | arithmetic operation => cases operation <;> exact ⟨nofun, nofun⟩
  | moveWide half => cases half <;> exact ⟨nofun, nofun⟩
  | transfer kind | stack kind => cases kind <;> exact ⟨nofun, nofun⟩
  | compare | moveRegister => exact ⟨nofun, nofun⟩

/-- The tokens of an instruction are a statement that asks for it. -/
theorem Instruction.statementPhrase_of_views {i : Instruction} (hreadable : i.IsReadable)
    {tokens : List Token} (h : tokens.map Token.view = i.views) :
    ∃ span, StatementPhrase tokens [⟨.instruction i, span⟩] := by
  obtain ⟨head, taken, rfl, hhead, h⟩ := List.map_eq_cons_iff.mp h
  obtain ⟨hkind, hlexeme⟩ := Prod.mk.inj hhead
  have hname : Mnemonic.ofWord? head.lexeme = some i.mnemonic := by
    have hbase := Action.base_ne_branch (hreadable.ne_branch)
    rw [hlexeme]
    exact Mnemonic.ofWord?_text hbase.1 hbase.2
  exact ⟨_, .plain hkind (.instruction hname (operandsPhrase_of_views hreadable h))⟩

/-! ## Programs -/

/-- The text of a program, one instruction on each line. -/
def disassembly (program : List Instruction) : String :=
  "\n".intercalate (program.map Instruction.text)

theorem Instruction.opens_text (i : Instruction) : Opens i.text.toList := by
  have hword := i.mnemonic.isWord_text
  rw [text_eq, String.toList_append]
  refine Opens.append ?_ _
  cases hletters : i.mnemonic.text.toList with
  | nil =>
      rw [hletters] at hword
      cases hword
  | cons c cs =>
      rw [hletters, isWord, Bool.and_eq_true] at hword
      exact opens_cons _ (not_isBlank_of_isAlpha hword.1)

/-- The lines of a disassembly are cut one after the other. -/
theorem scans_disassembly {program : List Instruction} (hreadable : ∀ i ∈ program, i.IsReadable) :
    Scans (disassembly program).toList (program.flatMap Instruction.views) [] := by
  unfold disassembly
  induction program with
  | nil => exact .nil []
  | cons i program ih =>
      have hi := hreadable i List.mem_cons_self
      have hrest := ih fun j hj => hreadable j (List.mem_cons_of_mem _ hj)
      -- the last line has nothing behind it, every other line a line feed
      cases program with
      | nil =>
          have hscan := Instruction.scans_text hi (breaks_nil _)
          simpa using hscan
      | cons j program =>
          have hopens : Opens ("\n".intercalate ((j :: program).map Instruction.text)).toList :=
            j.opens_text.intercalate "\n" _
          have hline := Scans.blank_cons (c := '\n') rfl hopens hrest
          have hscan := (Instruction.scans_text hi (breaks_cons _ rfl)).append hline
          have hfeed : "\n".toList = ['\n'] := rfl
          simpa only [List.map_cons, String.intercalate_cons_cons, String.toList_append,
            List.append_assoc, List.flatMap_cons, hfeed, List.singleton_append] using hscan

theorem exists_programPhrase {program : List Instruction}
    (hreadable : ∀ i ∈ program, i.IsReadable) {tokens : List Token}
    (h : tokens.map Token.view = program.flatMap Instruction.views) :
    ∃ items : List (Located Item), ProgramPhrase tokens items ∧
      items.map Located.value = program.map Item.instruction := by
  induction program generalizing tokens with
  | nil =>
      cases List.map_eq_nil_iff.mp h
      exact ⟨[], .nil, rfl⟩
  | cons i program ih =>
      rw [List.flatMap_cons] at h
      obtain ⟨taken, rest, rfl, htaken, hrest⟩ := List.map_eq_append_iff.mp h
      obtain ⟨span, hstatement⟩ :=
        Instruction.statementPhrase_of_views (hreadable i List.mem_cons_self) htaken
      obtain ⟨items, hphrase, hitems⟩ :=
        ih (fun j hj => hreadable j (List.mem_cons_of_mem _ hj)) hrest
      refine ⟨_, .cons hstatement hphrase, ?_⟩
      rw [List.map_append, hitems]
      rfl

/-- The bytes of an instruction, which do not depend on its place. -/
def Item.instructionBytes : Item → List UInt8
  | instruction i => littleEndian i.encode
  | _ => []

section Instructions

variable {program : List Instruction} {items : Program}

theorem Program.exists_instruction (h : items.map Located.value = program.map Item.instruction)
    {located : Located Item} (hmem : located ∈ items) :
    ∃ i ∈ program, located.value = .instruction i := by
  have hvalue : located.value ∈ items.map Located.value := List.mem_map_of_mem hmem
  rw [h] at hvalue
  obtain ⟨i, hi, heq⟩ := List.mem_map.mp hvalue
  exact ⟨i, hi, heq.symm⟩

theorem Program.code_instructions (h : items.map Located.value = program.map Item.instruction) :
    items.code = .ok (program.flatMap fun i => littleEndian i.encode) := by
  have hcode : items.code = .ok ((items.map Located.value).flatMap Item.instructionBytes) := by
    refine Program.code_eq_flatMap fun located hmem labels here => ?_
    obtain ⟨i, -, hvalue⟩ := Program.exists_instruction h hmem
    rw [hvalue]
    rfl
  rw [hcode, h, List.flatMap_map]
  rfl

theorem Program.address?_instructions
    (h : items.map Located.value = program.map Item.instruction) (name : String) :
    items.address? name = none := by
  rw [Program.address?_eq_none_iff]
  rintro ⟨located, hmem, hlabel⟩
  obtain ⟨i, -, hvalue⟩ := Program.exists_instruction h hmem
  rw [hvalue] at hlabel
  cases hlabel

end Instructions

/-- **A disassembly is assembled to the program that was disassembled.** Scanning succeeds, the
items are the instructions in their order, there are no labels, and the image is the encoding of
the instructions one after the other. -/
theorem assembleSource_disassembly {program : List Instruction}
    (hreadable : ∀ i ∈ program, i.IsReadable) :
    (∃ tokens, scan (disassembly program).toList = .ok tokens ∧
      ∃ s, Transcript.pass.run tokens .empty = .ok () s ∧
        s.result.calls.map Located.value = program.map Item.instruction) ∧
    ∃ binary, assembleSource (disassembly program).toList = .ok binary ∧
      binary.symbols.toList = [] ∧
      binary.image.toList = program.flatMap fun i => littleEndian i.encode := by
  obtain ⟨tokens, hscan, hviews⟩ := (scans_disassembly hreadable).scan_eq
  obtain ⟨items, hphrase, hitems⟩ := exists_programPhrase hreadable hviews
  obtain ⟨hproblem, rfl⟩ := Reading.ofTokens_finished_iff.mpr hphrase
  constructor
  -- what the pass hears that only listens
  · obtain ⟨t, hcalls, hrun⟩ := Transcript.run_eq tokens
    rw [hproblem] at hrun
    exact ⟨tokens, hscan, _, hrun, by rw [hcalls, hitems]⟩
  -- what the two passes make of it
  · have hassemble := assembleTokens_eq tokens
    simp only [hproblem, Program.code_instructions hitems] at hassemble
    obtain ⟨binary, hbinary, hsymbols, himage⟩ := hassemble
    refine ⟨binary, ?_, ?_, himage⟩
    · simp only [assembleSource, assemble_of_scan hscan, hbinary]
    · -- no item declares a label
      rw [List.eq_nil_iff_forall_not_mem]
      rintro ⟨name, address⟩ hmem
      rw [Symbols.mem_toList_iff, hsymbols, Program.address?_instructions hitems] at hmem
      cases hmem

/-- The program `ADDEQi -S R1, R2, #0x50000000` and `PUSH [R0, R14]`. -/
def addAndPush : List Instruction :=
  [⟨.equal, .arithmetic .add true ⟨1⟩ ⟨2⟩ (.immediate ⟨2, 5⟩)⟩, ⟨.always, .stack .push [⟨0⟩, ⟨14⟩]⟩]

theorem assembleSource_addAndPush :
    (∀ i ∈ addAndPush, i.IsReadable) ∧
      ∃ binary, assembleSource (disassembly addAndPush).toList = .ok binary ∧
        binary.symbols.toList = [] ∧
        binary.image.toList = [0x05, 0x12, 0x92, 0x02, 0x01, 0x40, 0x2d, 0xe9] := by
  have hreadable : ∀ i ∈ addAndPush, i.IsReadable := by
    intro i hi
    simp only [addAndPush, List.mem_cons, List.not_mem_nil, or_false] at hi
    rcases hi with rfl | rfl
    · exact ⟨0x50000000, by decide⟩
    · exact List.cons_ne_nil _ _
  have himage : (addAndPush.flatMap fun i => littleEndian i.encode) =
      [0x05, 0x12, 0x92, 0x02, 0x01, 0x40, 0x2d, 0xe9] := by decide
  obtain ⟨-, binary, hbinary, hsymbols, hbytes⟩ := assembleSource_disassembly hreadable
  exact ⟨hreadable, binary, hbinary, hsymbols, hbytes.trans himage⟩

end ArmAssembly
