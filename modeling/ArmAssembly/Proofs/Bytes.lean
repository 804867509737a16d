import ArmAssembly.Proofs.Blame
import ArmAssembly.Proofs.NumberPlaces

set_option autoImplicit false

/-! # The digits of a `byte` directive

A `byte` directive copies the digits of its literals, joined, two for each byte: written with two
digits each, its bytes are the digits again (`hex_of_bytesOfDigits`). All that can be wrong with the
digits of literals that were scanned is that their number is odd (`bytesOfLiterals_of_hex`), and a
text that can be read up to such a directive fails there (`assembleTokens_of_bytes`). That a digit
is none is reported for no text (`assembleSource_ne_notHexadecimal`).
-/

namespace ArmAssembly

/-! ## Pairs of digits -/

/-- A byte is written with the digits of its halves. -/
theorem byteHex_pair {high low : Nat} (hhigh : high < 16) (hlow : low < 16) :
    (byteHex (UInt8.ofNat (16 * high + low))).toList =
      [high.digitChar.toUpper, low.digitChar.toUpper] := by
  have hbyte : (UInt8.ofNat (16 * high + low)).toNat = 16 * high + low := by
    rw [UInt8.toNat_ofNat']
    exact Nat.mod_eq_of_lt (by omega)
  have hlast : Nat.toDigits 16 low = [low.digitChar] := Nat.toDigits_of_lt_base hlow
  rw [byteHex, hbyte, paddedHex, padLeft, upperHex, String.toList_ofList, String.toList_ofList]
  -- a high half that is zero has no digit of its own in a numeral, and is filled up
  by_cases hzero : high = 0
  · subst hzero
    rw [Nat.mul_zero, Nat.zero_add, hlast]
    rfl
  · have hdiv : (16 * high + low) / 16 = high := by omega
    have hmod : (16 * high + low) % 16 = low := by omega
    rw [toDigits_last (by decide) (by omega), hdiv, hmod, Nat.toDigits_of_lt_base hhigh]
    rfl

/-- A digit is the digit of its value, but for its case. -/
theorem digitChar_digitValue {c : Char} (h : isHexDigit c = true) :
    (digitValue c).digitChar.toUpper = c.toUpper :=
  forall_hexDigit (P := fun c => (digitValue c).digitChar.toUpper = c.toUpper) (by decide)
    (by decide) (by decide) h

/-- **The bytes copy the digits.** Bytes that are read from digits two by two are written with the
same digits, in capitals. -/
theorem hex_of_bytesOfDigits {digits : List Char} {contents : List UInt8}
    (h : bytesOfDigits? digits = some contents) :
    (contents.flatMap fun b => (byteHex b).toList) = digits.map Char.toUpper ∧
      2 * contents.length = digits.length := by
  -- on the digits in steps of two
  fun_induction bytesOfDigits? digits generalizing contents with
  | case1 =>
      cases h
      exact ⟨rfl, rfl⟩
  | case2 => cases h
  | case3 high low digits hhex ih =>
      obtain ⟨rest, hrest, rfl⟩ := Option.map_eq_some_iff.mp h
      obtain ⟨hdigits, hlength⟩ := ih hrest
      rw [Bool.and_eq_true] at hhex
      have hvalue : numeralValue 16 [high, low] = 16 * digitValue high + digitValue low := by
        simp [numeralValue]
      have hpair := byteHex_pair (digitValue_lt_of_isHexDigit hhex.1)
        (digitValue_lt_of_isHexDigit hhex.2)
      rw [digitChar_digitValue hhex.1, digitChar_digitValue hhex.2] at hpair
      refine ⟨?_, ?_⟩
      · rw [List.flatMap_cons, hvalue, hpair, hdigits]
        rfl
      · simp only [List.length_cons]
        omega
  | case4 => cases h

/-- The pair that is `AB` begins in one literal and ends in the next. -/
example : bytesOfDigits? ("0A".toList ++ "b".toList ++ "f".toList) = some [0x0A, 0xBF] := by decide

section

variable {literals : List Token}

/-- Literals with hexadecimal digits are refused just if the number of digits is odd. -/
theorem bytesOfLiterals_of_hex
    (hdigits : (literals.flatMap Token.digits).all isHexDigit = true) (span : Span) :
    ((literals.flatMap Token.digits).length % 2 = 1 →
        bytesOfLiterals literals span = .error
          ⟨.unencodable (.oddDigitCount (", ".intercalate (literals.map Token.lexeme))), span⟩) ∧
      ((literals.flatMap Token.digits).length % 2 = 0 →
        ∃ contents, bytesOfDigits? (literals.flatMap Token.digits) = some contents ∧
          bytesOfLiterals literals span = .ok contents) := by
  refine ⟨fun hodd => ?_, fun heven => ?_⟩
  · unfold bytesOfLiterals
    rw [if_pos hodd]
  · obtain ⟨contents, hcontents⟩ := exists_bytesOfDigits hdigits heven
    exact ⟨contents, hcontents, bytesOfLiterals_eq_ok_iff.mpr hcontents⟩

theorem bytesOfLiterals_eq_error {problem : Problem} {span : Span}
    (hdigits : (literals.flatMap Token.digits).all isHexDigit = true)
    (h : bytesOfLiterals literals span = .error problem) :
    (literals.flatMap Token.digits).length % 2 = 1 ∧
      problem = ⟨.unencodable (.oddDigitCount (", ".intercalate (literals.map Token.lexeme))),
        span⟩ := by
  obtain ⟨hodd, heven⟩ := bytesOfLiterals_of_hex hdigits span
  rcases Nat.mod_two_eq_zero_or_one (literals.flatMap Token.digits).length with hmod | hmod
  · obtain ⟨_, -, hok⟩ := heven hmod
    rw [h] at hok
    cases hok
  · rw [h] at hodd
    exact ⟨hmod, Except.error.inj (hodd hmod)⟩

end

/-! ## Directives -/

namespace Reader

theorem afterHead_of_byte {head : Token} (hname : head.isNamed "byte" = true) :
    afterHead head = bytes head := by
  rw [afterHead, if_pos hname]

/-- A `byte` directive in front of anything but a comma is read as its digits are. -/
theorem operation_of_bytes {head equals : Token} {taken literals rest : List Token}
    (hdirective : BytesDirective head equals taken literals)
    (hnext : (Cursor.mk [] rest).nextIs .comma = false) (before : List Token) :
    operation ⟨before, head :: equals :: (taken ++ rest)⟩ =
      outcomeAt (bytesOfLiterals literals (spanOver head (equals :: taken)))
        (fun contents => ⟨.data (.bytes contents), spanOver head (equals :: taken)⟩)
        ⟨taken.reverse ++ equals :: head :: before, rest⟩ := by
  -- the four steps of the reader, each with the place that it leads to
  have hequals : kind .equals .equals ⟨head :: before, equals :: (taken ++ rest)⟩ =
      .ok equals ⟨equals :: head :: before, taken ++ rest⟩ :=
    kind_eq_ok_iff.mpr ⟨Cursor.takes_singleton.mpr ⟨_, rfl, rfl⟩, hdirective.mark⟩
  have hliterals : list .hexLiteral Token.hexLiteral ⟨equals :: head :: before, taken ++ rest⟩ =
      .ok literals ⟨taken.reverse ++ equals :: head :: before, rest⟩ :=
    list_eq_ok_iff.mpr ⟨taken, ⟨rfl, rfl⟩, hdirective.list, hnext⟩
  have htakes : (Cursor.mk before (head :: equals :: (taken ++ rest))).Takes
      (head :: equals :: taken) ⟨taken.reverse ++ equals :: head :: before, rest⟩ :=
    ⟨rfl, by simp⟩
  have hspan : spanFrom head ⟨taken.reverse ++ equals :: head :: before, rest⟩ =
      .ok (spanOver head (equals :: taken)) ⟨taken.reverse ++ equals :: head :: before, rest⟩ :=
    spanFrom_eq_ok_iff.mpr ⟨by rw [htakes.lastStop]; rfl, rfl⟩
  have hbytes : bytes head ⟨head :: before, equals :: (taken ++ rest)⟩ =
      outcomeAt (bytesOfLiterals literals (spanOver head (equals :: taken)))
        (fun contents => .data (.bytes contents))
        ⟨taken.reverse ++ equals :: head :: before, rest⟩ := by
    rw [bytes, bind_of_ok hequals, bind_of_ok hliterals, bind_of_ok hspan]
    cases bytesOfLiterals literals (spanOver head (equals :: taken)) <;> rfl
  rw [operation_of_word (Grammar.kind_of_isNamed hdirective.name),
    afterHead_of_byte hdirective.name]
  refine bind_of_outcomeAt
    (g := fun i => (⟨i, spanOver head (equals :: taken)⟩ : Located Item)) hbytes fun i => ?_
  rw [bind_of_ok hspan]
  rfl

end Reader

/-! ## Digits that cannot be paired

Where the first statement that cannot be read is such a directive, the text fails with its problem.
The statements before it form a program, so reading comes to the directive; a label in front of it
makes no difference. -/

section

variable {front : List Token} {c d : Cursor} {problem : Problem}

/-- A reading that has come to an operation that fails ends there. -/
theorem Reading.problem?_ofOperation {e : Cursor} (h : Reader.operation c = .error problem e) :
    (ofOperation c).problem? = some problem := by
  unfold ofOperation
  rw [h]
  rfl

/-- Behind a label, or where no colon follows a word, an operation is read. -/
theorem Reading.problem?_of_label (hfront : LabelPhrase front) (htakes : c.Takes front d)
    {head next : Token} {rest : List Token} (hafter : d.after = head :: next :: rest)
    (hnext : next.kind ≠ .colon) :
    (ofCursor c).problem? = (ofOperation d).problem? := by
  cases hfront with
  | absent =>
      obtain rfl := Cursor.takes_nil.mp htakes
      have hplain : c.declaration? = none := by
        unfold Cursor.declaration?
        rw [hafter]
        simp [hnext]
      rw [ofCursor_plain (by simp [hafter]) hplain]
  | present label mark =>
      rw [ofCursor_labelled
        (Cursor.declaration?_eq_some_iff.mpr ⟨_, _, htakes, label, mark, rfl⟩)]
      rfl

/-- A text whose first statement that cannot be read is a `byte` directive fails with what is wrong
with the digits. -/
theorem assembleTokens_of_bytes {earlier taken literals rest : List Token} {head equals : Token}
    {items : Program} (hearlier : ProgramPhrase earlier items) (hfront : LabelPhrase front)
    (hdirective : BytesDirective head equals taken literals)
    (hnext : (Cursor.mk [] rest).nextIs .comma = false)
    (hunpaired : bytesOfLiterals literals (spanOver head (equals :: taken)) = .error problem) :
    assembleTokens (earlier ++ (front ++ head :: equals :: (taken ++ rest))) = .error problem := by
  have hread := Reader.operation_of_bytes hdirective hnext (front.reverse ++ earlier.reverse)
  rw [hunpaired] at hread
  have htakes : (Cursor.ofList (earlier ++ (front ++ head :: equals :: (taken ++ rest)))).Takes
      earlier ⟨earlier.reverse, front ++ head :: equals :: (taken ++ rest)⟩ := by
    simp [Cursor.Takes, Cursor.ofList]
  -- what the earlier statements leave begins with a word, and not with a comma
  have hcomma : Cursor.nextIs ⟨earlier.reverse, front ++ head :: equals :: (taken ++ rest)⟩ .comma =
      false := by
    cases hfront with
    | absent => simp [Cursor.nextIs, Grammar.kind_of_isNamed hdirective.name]
    | present label => simp [Cursor.nextIs, label]
  have hlabel := Reading.problem?_of_label hfront
    (c := ⟨earlier.reverse, front ++ head :: equals :: (taken ++ rest)⟩)
    (d := ⟨front.reverse ++ earlier.reverse, head :: equals :: (taken ++ rest)⟩) ⟨rfl, rfl⟩ rfl
    (by simp [hdirective.mark])
  have hend := (Reading.ofCursor_continues hearlier htakes hcomma).problem_eq
  rw [hlabel, Reading.problem?_ofOperation hread] at hend
  have hassemble := assembleTokens_eq (earlier ++ (front ++ head :: equals :: (taken ++ rest)))
  simp only [Reading.ofTokens, hend] at hassemble
  exact hassemble

end

/-! ## Digits that are none

The tokens of a text have the forms that their kinds ask for, and the literals of a directive are
hexadecimal numbers. So the one cause that speaks of a character that is no digit is reported for no
text, though the reader of the directive has it. -/

/-- No operation of well-formed tokens has a digit that is none. -/
theorem Problem.OfOperation.ne_notHexadecimal {tokens after : List Token} {problem : Problem}
    {d : Cursor} (h : problem.OfOperation tokens after d)
    (hshaped : ∀ t ∈ after, t.isShaped = true) (digits : String) :
    problem.cause ≠ .malformed (.notHexadecimal digits) := by
  intro hcause
  cases h with
  | concerns concerns =>
      -- the causes that quote a token are other causes
      cases concerns with
      | token _ quotes =>
          have hquoted := quotes.cause
          rw [hcause] at hquoted
          cases hquoted
      | ending _ heq =>
          rw [heq] at hcause
          cases hcause
  | digits reads _ directive unpaired =>
      have hdigits := Grammar.isHexDigit_of_literals directive.list fun t ht =>
        hshaped t (by simp [reads, ht])
      rw [(bytesOfLiterals_eq_error hdigits unpaired).2] at hcause
      cases hcause

/-- **The digits of a text are digits**: no text fails because a digit of a literal is none. -/
theorem assembleSource_ne_notHexadecimal (source : List Char) (digits : String)
    (location : Location) :
    assembleSource source ≠ .error (.program (.malformed (.notHexadecimal digits)) location) := by
  intro h
  obtain ⟨problem, hassemble, hfailure⟩ := exists_problem_of_assembleSource h
  have hcause : problem.cause = .malformed (.notHexadecimal digits) :=
    (Failure.program.inj hfailure).1.symm
  cases hscan : scan source with
  | error unknown =>
      rw [assemble, hscan] at hassemble
      cases hassemble
      obtain ⟨symbol, hsymbol⟩ := scan_error hscan
      rw [hcause] at hsymbol
      cases hsymbol
  | ok tokens =>
      rw [assemble_of_scan hscan] at hassemble
      obtain ⟨earlier, front, e, d, hstuck, hoperation⟩ | ⟨_, _, _, _, _, _, _, hlabel⟩ :=
        stuck_or_used_of_assembleTokens hassemble
      · have htokens : tokens = earlier ++ front ++ e.after := hstuck.takes.1
        refine hoperation.ne_notHexadecimal (fun t ht => ?_) digits hcause
        exact isShaped_of_scan hscan t (htokens ▸ List.mem_append_right _ ht)
      · rw [hcause] at hlabel
        cases hlabel

end ArmAssembly
