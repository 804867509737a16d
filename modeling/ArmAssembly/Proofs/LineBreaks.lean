import ArmAssembly.Proofs.Disassembly

set_option autoImplicit false

/-! # Lines and line breaks

A text of lines has a line break behind each of them and nowhere else (`HasLines`), so that its line
breaks count its lines. Numbers, registers, instructions and blocks of data are written without a
line break (`Instruction.lineBreaks_text`, `Block.lineBreaks_text`).
-/

namespace ArmAssembly

/-! ## Lines -/

/-- The text is made of these lines, each of them ended by a line break. -/
structure HasLines (text : List Char) (lines : List (List Char)) : Prop where
  ended : text = lines.flatMap fun line => line ++ ['\n']
  unbroken : ∀ line ∈ lines, '\n' ∉ line

namespace HasLines

variable {text more line : List Char} {lines others : List (List Char)}

theorem nil : HasLines [] [] := ⟨rfl, nofun⟩

theorem singleton (h : '\n' ∉ line) : HasLines (line ++ ['\n']) [line] :=
  ⟨(List.flatMap_singleton _ _).symm, List.forall_mem_singleton.mpr h⟩

theorem append (h : HasLines text lines) (hmore : HasLines more others) :
    HasLines (text ++ more) (lines ++ others) where
  ended := by rw [List.flatMap_append, ← h.ended, ← hmore.ended]
  unbroken := List.forall_mem_append.mpr ⟨h.unbroken, hmore.unbroken⟩

theorem flatMap {α : Type} {items : List α} {textOf : α → List Char}
    {linesOf : α → List (List Char)} (h : ∀ x ∈ items, HasLines (textOf x) (linesOf x)) :
    HasLines (items.flatMap textOf) (items.flatMap linesOf) := by
  induction items with
  | nil => exact nil
  | cons x items ih =>
      obtain ⟨hx, hitems⟩ := List.forall_mem_cons.mp h
      exact hx.append (ih hitems)

/-- There are as many lines as line breaks. -/
theorem count_eq (h : HasLines text lines) : text.count '\n' = lines.length := by
  obtain ⟨rfl, hunbroken⟩ := h
  induction lines with
  | nil => rfl
  | cons line lines ih =>
      obtain ⟨hline, hlines⟩ := List.forall_mem_cons.mp hunbroken
      rw [List.flatMap_cons, List.count_append, List.count_append, ih hlines,
        List.count_eq_zero.mpr hline, List.length_cons]
      exact Nat.add_comm _ _

/-- A text with a line break behind it has the lines that the line breaks separate. -/
theorem splitOn (text : List Char) : HasLines (text ++ ['\n']) (text.splitOn '\n') := by
  induction text with
  | nil => exact singleton List.not_mem_nil
  | cons c text ih =>
      rw [List.splitOn_cons_eq_if_modifyHead]
      split
      · next hfeed =>
          rw [beq_iff_eq.mp hfeed]
          exact (singleton List.not_mem_nil).append ih
      · next hother =>
          obtain ⟨line, others, hlines⟩ :=
            List.exists_cons_of_ne_nil (List.splitOn_ne_nil '\n' text)
          rw [hlines] at ih ⊢
          have hne : '\n' ≠ c := fun heq => hother (beq_iff_eq.mpr heq.symm)
          constructor
          · rw [List.cons_append, ih.ended]
            rfl
          · obtain ⟨hline, hothers⟩ := List.forall_mem_cons.mp ih.unbroken
            exact List.forall_mem_cons.mpr ⟨List.not_mem_cons_of_ne_of_not_mem hne hline, hothers⟩

end HasLines

/-- What has no line break and stands in front of a text belongs to its first line. -/
theorem splitOn_append_of_not_mem {front : List Char} (h : '\n' ∉ front) (text : List Char) :
    (front ++ text).splitOn '\n' = (text.splitOn '\n').modifyHead (front ++ ·) := by
  obtain ⟨line, more, hlines⟩ := List.exists_cons_of_ne_nil (List.splitOn_ne_nil '\n' text)
  rw [hlines, List.modifyHead_cons]
  induction front with
  | nil => exact hlines
  | cons c front ih =>
      obtain ⟨hne, hfront⟩ := List.ne_and_not_mem_of_not_mem_cons h
      rw [List.cons_append, List.splitOn_cons_eq_if_modifyHead, ih hfront, List.modifyHead_cons,
        if_neg (fun heq => hne (beq_iff_eq.mp heq).symm)]
      rfl

/-! ## Texts without line breaks

It is enough to look at the literals of a text and at its digits. So there is a small lemma for each
thing that is written, and the larger ones are made up of these. -/

/-- The number of line breaks in a text. -/
def lineBreaks (s : String) : Nat := s.toList.count '\n'

/-- A text without a line break is one line. -/
theorem HasLines.of_lineBreaks {s : String} (h : lineBreaks s = 0) :
    HasLines (s ++ "\n").toList [s.toList] := by
  rw [String.toList_append]
  exact .singleton (List.count_eq_zero.mp h)

@[simp] theorem lineBreaks_append (s t : String) :
    lineBreaks (s ++ t) = lineBreaks s + lineBreaks t := by
  rw [lineBreaks, String.toList_append, List.count_append, lineBreaks, lineBreaks]

@[simp] theorem lineBreaks_padRight (width : Nat) (s : String) :
    lineBreaks (padRight width s) = lineBreaks s := by
  simp [lineBreaks, padRight, List.rightpad, List.count_replicate]

theorem lineBreaks_padLeft {fill : Char} (h : fill ≠ '\n') (width : Nat) (s : String) :
    lineBreaks (padLeft width fill s) = lineBreaks s := by
  simp [lineBreaks, padLeft, List.leftpad, List.count_replicate, h]

theorem count_toDigits {base : Nat} (hbase : 1 < base) (hle : base ≤ 16) (n : Nat) :
    (Nat.toDigits base n).count '\n' = 0 := by
  have hall : ∀ k : Fin 16, k.val.digitChar ≠ '\n' := by decide
  have hdigit : ∀ c ∈ Nat.toDigits base n, c ≠ '\n' :=
    forall_mem_toDigits hbase (fun k hk => hall ⟨k, by omega⟩) n
  exact List.count_eq_zero.mpr fun hmem => hdigit _ hmem rfl

@[simp] theorem lineBreaks_upperHex (n : Nat) : lineBreaks (upperHex n) = 0 := by
  have hall : ∀ k : Fin 16, k.val.digitChar.toUpper ≠ '\n' := by decide
  have hdigit : ∀ c ∈ Nat.toDigits 16 n, c.toUpper ≠ '\n' :=
    forall_mem_toDigits (by decide) (fun k hk => hall ⟨k, hk⟩) n
  rw [lineBreaks, upperHex, String.toList_ofList]
  refine List.count_eq_zero.mpr fun hmem => ?_
  obtain ⟨c, hc, hupper⟩ := List.mem_map.mp hmem
  exact hdigit c hc hupper

@[simp] theorem lineBreaks_paddedHex (width n : Nat) : lineBreaks (paddedHex width n) = 0 := by
  rw [paddedHex, lineBreaks_padLeft (by decide), lineBreaks_upperHex]

@[simp] theorem lineBreaks_toString (n : Nat) : lineBreaks (toString n) = 0 := by
  rw [lineBreaks, Nat.toString_eq_repr, Nat.repr_eq_ofList_toDigits, String.toList_ofList]
  exact count_toDigits (by decide) (by decide) n

theorem lineBreaks_intercalate {separator : String} (hseparator : lineBreaks separator = 0)
    {parts : List String} (h : ∀ s ∈ parts, lineBreaks s = 0) :
    lineBreaks (separator.intercalate parts) = 0 := by
  induction parts with
  | nil => simp [lineBreaks]
  | cons s parts ih =>
      obtain ⟨hs, hparts⟩ := List.forall_mem_cons.mp h
      cases parts with
      | nil => simpa using hs
      | cons => simp [hs, hseparator, ih hparts]

@[simp] theorem Condition.lineBreaks_text (condition : Condition) :
    lineBreaks condition.text = 0 := by
  cases condition <;> decide

@[simp] theorem Register.lineBreaks_text (r : Register) : lineBreaks r.text = 0 := by
  rw [lineBreaks, r.text_toList, List.count_cons, count_toDigits (by decide) (by decide)]
  rfl

@[simp] theorem Field.lineBreaks_text {w : Nat} (field : BitVec w) :
    lineBreaks (Field.text field) = 0 := by
  rw [Field.text, lineBreaks_append, lineBreaks_upperHex]
  decide

@[simp] theorem RotatedByte.lineBreaks_text (b : RotatedByte) : lineBreaks b.text = 0 :=
  Field.lineBreaks_text b.constant

theorem Register.lineBreaks_listText (registers : List Register) :
    lineBreaks (Register.listText registers) = 0 := by
  have hlist : lineBreaks (", ".intercalate (registers.map Register.text)) = 0 :=
    lineBreaks_intercalate (by decide) (List.forall_mem_map.mpr fun r _ => r.lineBreaks_text)
  rw [Register.listText, lineBreaks_append, lineBreaks_append, hlist]
  decide

@[simp] theorem Arithmetic.lineBreaks_name (operation : Arithmetic) :
    lineBreaks operation.name = 0 := by
  cases operation <;> decide

@[simp] theorem Half.lineBreaks_name (half : Half) : lineBreaks half.name = 0 := by
  cases half <;> decide

@[simp] theorem TransferKind.lineBreaks_name (kind : TransferKind) :
    lineBreaks kind.name = 0 := by
  cases kind <;> decide

@[simp] theorem StackKind.lineBreaks_name (kind : StackKind) : lineBreaks kind.name = 0 := by
  cases kind <;> decide

@[simp] theorem Operand.lineBreaks_letter {α : Type} (o : Operand α) :
    lineBreaks o.letter = 0 := by
  cases o <;> simp only [Operand.letter] <;> decide

theorem Operand.lineBreaks_text {α : Type} {number : α → String}
    (h : ∀ value, lineBreaks (number value) = 0) (o : Operand α) :
    lineBreaks (o.text number) = 0 := by
  cases o with
  | immediate value =>
      rw [Operand.text, lineBreaks_append, h value]
      decide
  | register source => exact source.lineBreaks_text

@[simp] theorem lineBreaks_signedText (n : Int) : lineBreaks (signedText n) = 0 := by
  unfold signedText
  split <;> rw [lineBreaks_append, lineBreaks_toString] <;> decide

@[simp] theorem lineBreaks_flagText (flag : Bool) (letter : String) :
    lineBreaks (flagText flag letter) = if flag then lineBreaks letter else 0 := by
  cases flag <;> rfl

@[simp] theorem Indexing.lineBreaks_text (indexing : Indexing) : lineBreaks indexing.text = 0 := by
  unfold Indexing.text
  split
  · decide
  · simp +decide

/-- An instruction is shown on one line. -/
theorem Instruction.lineBreaks_text (i : Instruction) : lineBreaks i.text = 0 := by
  obtain ⟨condition, action⟩ := i
  cases action with
  | branch link offset => cases link <;> simp +decide [Instruction.text]
  | arithmetic operation setFlags destination first second =>
      have hsecond := second.lineBreaks_text RotatedByte.lineBreaks_text
      simp +decide [Instruction.text, hsecond]
  | compare first second =>
      have hsecond := second.lineBreaks_text Field.lineBreaks_text
      simp +decide [Instruction.text, hsecond]
  | moveWide | moveRegister => simp +decide [Instruction.text]
  | transfer kind indexing destination base offset =>
      have hoffset := offset.lineBreaks_text Field.lineBreaks_text
      simp +decide [Instruction.text, hoffset]
  | stack kind registers =>
      simp +decide [Instruction.text, Register.lineBreaks_listText registers]

/-- The bytes of a block are shown on one line. -/
theorem Block.lineBreaks_text (block : Block) : lineBreaks block.text = 0 :=
  lineBreaks_intercalate (by decide)
    (List.forall_mem_map.mpr fun b _ => lineBreaks_paddedHex 2 b.toNat)

end ArmAssembly
