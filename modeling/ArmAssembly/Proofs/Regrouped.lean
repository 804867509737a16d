import ArmAssembly.Proofs.Bytes
import ArmAssembly.Proofs.Respelled

set_option autoImplicit false

/-! # Digits that are grouped otherwise

How the digits of a `byte` directive are shared out among its literals leaves no trace: the bytes
come from the digits joined. The mark `=` stands only behind the word that begins a directive, so it
tells in which statement of a program a directive stands (`ProgramPhrase.at_mark`), and there an
operation for the same item may stand as well (`StatementPhrase.replace`). What a directive comes to
is then settled by its digits (`byte_directive_copies_digits`).
-/

namespace ArmAssembly

/-! ## Where the mark of a directive stands

No operand has the mark `=` in it, so the mark is found by going over all operands. It stands right
behind the first word of an operation, if it stands in the operation at all. -/

section Marks

variable {m : Mnemonic} {taken : List Token} {item : Item}

theorem ne_equals_of_numeric {t : Token} (h : t.kind.isNumeric = true) : t.kind ≠ .equals := by
  intro heq
  rw [heq] at h
  cases h

theorem FlagPhrase.ne_equals {accepted : String} {letters : List Char}
    (h : FlagPhrase accepted taken letters) : ∀ t ∈ taken, t.kind ≠ .equals := by
  cases h with
  | absent => nofun
  | present mark word _ => simp [mark, word]

theorem LastPhrase.ne_equals {α : Type} {suffix : Option Suffix}
    {convert : Token → Except Problem α} {t : Token} {operand : Operand α}
    (h : LastPhrase suffix convert t operand)
    (hconvert : ∀ a, convert t = .ok a → t.kind.isNumeric = true) : t.kind ≠ .equals := by
  cases h with
  | immediate _ number => exact ne_equals_of_numeric (hconvert _ number)
  | register _ source => simp [Token.kind_of_register source]

/-- No operand is the mark of a directive. -/
theorem OperandsPhrase.ne_equals (h : OperandsPhrase m taken item) :
    ∀ t ∈ taken, t.kind ≠ .equals := by
  have hnumber {place : OperandPlace} (t : Token) (bits : BitVec place.width)
      (ht : t.numberIn place = .ok bits) : t.kind.isNumeric = true :=
    (Token.numberIn_eq_ok_iff.mp ht).1
  have hconstant (t : Token) (b : RotatedByte) (ht : t.constant = .ok b) :
      t.kind.isNumeric = true := (Token.constant_eq_ok_iff.mp ht).1
  unfold OperandsPhrase at h
  -- by base name: all operands are numbers, registers, words and marks other than `=`
  cases hbase : m.base with
  | branch | branchLink =>
      rw [hbase] at h
      cases h with
      | offset number => simp [ne_equals_of_numeric (hnumber _ _ number)]
      | label word => simp [word]
  | and | orr | add | sub =>
      rw [hbase] at h
      cases h with
      | intro setting destination separator first separator' second =>
          refine List.forall_mem_append.mpr ⟨setting.ne_equals, ?_⟩
          simp [Token.kind_of_register destination, separator, Token.kind_of_register first,
            separator', second.ne_equals (hconstant _)]
  | compare =>
      rw [hbase] at h
      cases h with
      | intro first separator second =>
          simp [Token.kind_of_register first, separator, second.ne_equals (hnumber _)]
  | move | moveWide =>
      rw [hbase] at h
      cases h with
      | immediate _ destination separator number =>
          simp [Token.kind_of_register destination, separator,
            ne_equals_of_numeric (hnumber _ _ number)]
      | register _ destination separator source =>
          simp [Token.kind_of_register destination, separator, Token.kind_of_register source]
      | label _ destination separator word =>
          simp [Token.kind_of_register destination, separator, word]
  | moveTop =>
      rw [hbase] at h
      cases h with
      | intro _ destination separator number =>
          simp [Token.kind_of_register destination, separator,
            ne_equals_of_numeric (hnumber _ _ number)]
  | load | loadByte | store =>
      rw [hbase] at h
      cases h with
      | intro indexing destination separator base separator' offset =>
          refine List.forall_mem_append.mpr ⟨indexing.ne_equals, ?_⟩
          simp [Token.kind_of_register destination, separator, Token.kind_of_register base,
            separator', offset.ne_equals (hnumber _)]
  | push | pop =>
      rw [hbase] at h
      cases h with
      | intro _ opening list closing =>
          refine List.forall_mem_cons.mpr ⟨by simp [opening],
            List.forall_mem_append.mpr ⟨fun t ht => ?_, by simp [closing]⟩⟩
          rcases list.comma_or_item t ht with hcomma | ⟨r, hr⟩
          · simp [hcomma]
          · simp [Token.kind_of_register hr]

/-- The mark of a directive stands right behind its name. -/
theorem OperationPhrase.front_eq_nil {head equals : Token} {u w : List Token}
    (h : OperationPhrase head (u ++ equals :: w) item) (hmark : equals.kind = .equals) :
    u = [] := by
  have hbehind {list : List Token} (hlist : ∀ t ∈ list, t.kind ≠ .equals) {first : Token}
      (htokens : first :: list = u ++ equals :: w) : u = [] := by
    cases u with
    | nil => rfl
    | cons _ u =>
        obtain ⟨-, rfl⟩ := List.cons.inj htokens
        exact absurd hmark (hlist equals (by simp))
  -- if there were tokens in front, the mark would stand in the list or among the operands
  generalize htokens : u ++ equals :: w = taken at h
  cases h with
  | bytes _ _ list =>
      refine hbehind (fun t ht => ?_) htokens.symm
      rcases kinds_of_literals list t ht with hkind | hkind <;> simp [hkind]
  | words _ _ list =>
      refine hbehind (fun t ht => ?_) htokens.symm
      rcases list.comma_or_item t ht with hcomma | ⟨word, hword⟩
      · simp [hcomma]
      · have hnumber : t.numberIn .dataWord = .ok word := hword
        exact ne_equals_of_numeric (Token.numberIn_eq_ok_iff.mp hnumber).1
  | instruction _ operands =>
      subst htokens
      exact absurd hmark (operands.ne_equals equals (by simp))

/-- Tokens of an operation in which a mark stands begin with the name of the directive. -/
theorem OperationPhrase.at_mark {head first equals : Token} {u w : List Token}
    (h : OperationPhrase first taken item) (htokens : u ++ head :: equals :: w = first :: taken)
    (hmark : equals.kind = .equals) : u = [] ∧ head = first ∧ equals :: w = taken := by
  cases u with
  | nil => exact ⟨rfl, List.cons.inj htokens⟩
  | cons _ u =>
      -- the mark would stand further behind
      obtain ⟨-, rfl⟩ := List.cons.inj htokens
      have hlater : OperationPhrase first ((u ++ [head]) ++ equals :: w) item := by simpa using h
      have hfront := hlater.front_eq_nil hmark
      simp at hfront

end Marks

/-! ## Other directives for the same item

A program is divided at the mark into the statements before, the statement around it and those
behind. In this statement all from the head on may be replaced, and a label in front stays. -/

section Replace

variable {u w : List Token} {head equals : Token} {items : Program}

/-- In a statement, the tokens from the name of a directive on may be replaced by an operation for
an item that corresponds. -/
theorem StatementPhrase.replace (h : StatementPhrase (u ++ head :: equals :: w) items)
    (hmark : equals.kind = .equals) :
    ∃ item, OperationPhrase head (equals :: w) item ∧
      ∀ (u' : List Token) (head' : Token) (w' : List Token) (item' : Item),
        u'.map Token.view = u.map Token.view → head'.kind = .word →
        OperationPhrase head' w' item' → item.Corresponds SameName item' →
        ∃ items', StatementPhrase (u' ++ head' :: w') items' ∧
          Program.Corresponds SameName items items' := by
  generalize htokens : u ++ head :: equals :: w = tokens at h
  cases h with
  | @plain first taken item word operation =>
      obtain ⟨rfl, rfl, rfl⟩ := operation.at_mark htokens hmark
      refine ⟨item, operation, fun u' head' w' item' hu hhead hphrase hitem => ?_⟩
      obtain rfl := List.map_eq_nil_iff.mp hu
      exact ⟨_, .plain hhead hphrase, .cons (.operation _ _ hitem) .nil⟩
  | @labelled name colon first taken item label mark word operation =>
      -- the mark is neither the colon of the label nor the word behind it
      match u, htokens with
      | [], htokens =>
          obtain ⟨-, hrest⟩ := List.cons.inj htokens
          rw [(List.cons.inj hrest).1, mark] at hmark
          cases hmark
      | [_], htokens =>
          obtain ⟨-, hrest⟩ := List.cons.inj (List.cons.inj htokens).2
          rw [(List.cons.inj hrest).1, word] at hmark
          cases hmark
      | _ :: _ :: _, htokens =>
          obtain ⟨rfl, hbehind⟩ := List.cons.inj htokens
          obtain ⟨rfl, hrest⟩ := List.cons.inj hbehind
          obtain ⟨rfl, rfl, rfl⟩ := operation.at_mark hrest hmark
          refine ⟨item, operation, fun u' head' w' item' hu hhead hphrase hitem => ?_⟩
          obtain ⟨name', _, rfl, hname, hbehind⟩ := List.map_eq_cons_iff.mp hu
          obtain ⟨colon', _, rfl, hcolon, hnil⟩ := List.map_eq_cons_iff.mp hbehind
          obtain rfl := List.map_eq_nil_iff.mp hnil
          have hkind : name'.kind = .word := (congrArg Prod.fst hname).trans label
          have hmark' : colon'.kind = .colon := (congrArg Prod.fst hcolon).trans mark
          have hlabel : SameName (Token.name _) name'.name := congrArg Prod.snd hname
          exact ⟨_, .labelled hkind hmark' hhead hphrase,
            .cons (.label hlabel) (.cons (.operation _ _ hitem) .nil)⟩

/-- The tokens `head` and `equals` stand in one statement, behind and in front of others. -/
inductive InStatement (head equals : Token) : List Token → List Token → Program → Prop where
  | intro {earlier front list later : List Token} {first middle last : Program}
      (before : ProgramPhrase earlier first)
      (statement : StatementPhrase (front ++ head :: equals :: list) middle)
      (behind : ProgramPhrase later last) :
      InStatement head equals (earlier ++ front) (list ++ later) (first ++ (middle ++ last))

theorem InStatement.cons {s : List Token} {more : Program} (h : InStatement head equals u w items)
    (statement : StatementPhrase s more) : InStatement head equals (s ++ u) w (more ++ items) := by
  cases h with
  | intro before marked behind =>
      rw [← List.append_assoc, ← List.append_assoc]
      exact .intro (.cons statement before) marked behind

/-- A mark in a program stands in one of its statements. -/
theorem ProgramPhrase.at_mark (h : ProgramPhrase (u ++ head :: equals :: w) items)
    (hmark : equals.kind = .equals) : InStatement head equals u w items := by
  generalize htokens : u ++ head :: equals :: w = tokens at h
  induction h generalizing u with
  | nil => simp at htokens
  | @cons s v items more statement rest ih =>
      -- the mark stands in the first statement, or in the statements behind it
      rcases List.append_eq_append_iff.mp htokens with ⟨list, hs, hbehind⟩ | ⟨later, rfl, hv⟩
      · match list, hs, hbehind with
        | [], hs, hbehind =>
            have hlater := (ih (u := []) hbehind).cons statement
            rwa [hs, List.append_nil, List.append_nil] at hlater
        | [_], _, hbehind =>
            -- the statements behind would begin with the mark
            obtain ⟨-, rfl⟩ := List.cons.inj hbehind
            rw [rest.first] at hmark
            cases hmark
        | _ :: _ :: list, hs, hbehind =>
            obtain ⟨rfl, hlist⟩ := List.cons.inj hbehind
            obtain ⟨rfl, rfl⟩ := List.cons.inj hlist
            exact .intro .nil (hs ▸ statement) rest
      · exact (ih hv.symm).cons statement

end Replace

/-! ## Regrouped digits

Two directives may differ in their literals and commas, and in the case of their digits. What they
share is the digits one after the other, and these decide the bytes. -/

/-- Where no comma goes on with it, a list ends at one place only. -/
theorem ListPhrase.unique {α : Type} {convert : Token → Except Problem α}
    {u v u' v' : List Token} {values values' : List α} (h : ListPhrase convert u values)
    (h' : ListPhrase convert u' values') (htokens : u ++ v = u' ++ v')
    (hnext : (Cursor.mk [] v).nextIs .comma = false)
    (hnext' : (Cursor.mk [] v').nextIs .comma = false) :
    u = u' ∧ v = v' ∧ values = values' := by
  have hread : Reader.list .hexLiteral convert ⟨[], u ++ v⟩ = .ok values ⟨u.reverse, v⟩ :=
    Reader.list_eq_ok_iff.mpr ⟨u, ⟨rfl, by simp⟩, h, hnext⟩
  have hread' : Reader.list .hexLiteral convert ⟨[], u' ++ v'⟩ = .ok values' ⟨u'.reverse, v'⟩ :=
    Reader.list_eq_ok_iff.mpr ⟨u', ⟨rfl, by simp⟩, h', hnext'⟩
  rw [htokens, hread', EStateM.Result.ok.injEq, Cursor.mk.injEq, List.reverse_inj] at hread
  obtain ⟨rfl, rfl, rfl⟩ := hread
  exact ⟨rfl, rfl, rfl⟩

/-- The tokens are the same, be they at other places, but for the literals of one `byte` directive:
their digits, joined, are the same, be they in another case. -/
inductive Regrouped : List Token → List Token → Prop where
  | intro {u u' v v' taken taken' literals literals' : List Token}
      {head equals head' equals' : Token} (front : u'.map Token.view = u.map Token.view)
      (behind : v'.map Token.view = v.map Token.view)
      (directive : BytesDirective head equals taken literals)
      (directive' : BytesDirective head' equals' taken' literals')
      (ends : (Cursor.mk [] v).nextIs .comma = false)
      (digits : (literals'.flatMap Token.digits).map Char.toUpper =
        (literals.flatMap Token.digits).map Char.toUpper) :
      Regrouped (u ++ head :: equals :: (taken ++ v)) (u' ++ head' :: equals' :: (taken' ++ v'))

/-- The directive asks for the bytes that the digits are. -/
theorem OperationPhrase.of_bytes {head equals : Token} {list : List Token} {item : Item}
    (h : OperationPhrase head (equals :: list) item) (hname : head.isNamed "byte" = true) :
    ∃ literals contents, ListPhrase Token.hexLiteral list literals ∧
      bytesOfDigits? (literals.flatMap Token.digits) = some contents ∧
      item = .data (.bytes contents) := by
  cases h with
  | bytes _ _ list pairs => exact ⟨_, _, list, pairs, rfl⟩
  | words name =>
      rw [Token.isNamed_eq_false hname (by decide)] at name
      cases name
  | instruction name =>
      rw [Token.ofWord?_eq_none_of_isNamed hname (by decide)] at name
      cases name

/-- A directive with the same digits asks for the same bytes. -/
theorem BytesDirective.operation {head equals : Token} {taken literals digits : List Token}
    {contents : List UInt8} (h : BytesDirective head equals taken literals)
    (hdigits : (literals.flatMap Token.digits).map Char.toUpper =
      (digits.flatMap Token.digits).map Char.toUpper)
    (hpairs : bytesOfDigits? (digits.flatMap Token.digits) = some contents) :
    OperationPhrase head (equals :: taken) (.data (.bytes contents)) := by
  refine .bytes h.name h.mark h.list ?_
  rw [← bytesOfDigits?_toUpper, hdigits, bytesOfDigits?_toUpper, hpairs]

theorem ProgramPhrase.regrouped {tokens tokens' : List Token} {items : Program}
    (h : ProgramPhrase tokens items) (hregrouped : Regrouped tokens tokens') :
    ∃ items', ProgramPhrase tokens' items' ∧ Program.Corresponds SameName items items' := by
  cases hregrouped with
  | @intro u u' v v' taken taken' literals literals' head equals head' equals' front behind
      directive directive' ends digits =>
      have hmarked := h.at_mark directive.mark
      generalize hlist : taken ++ v = w at hmarked
      obtain @⟨earlier, marked, list, later, first, middle, last, hearlier, hmiddle, hlater⟩ :=
        hmarked
      obtain ⟨earlier', front', rfl, hviews, hviews'⟩ := List.map_eq_append_iff.mp
        (front.trans List.map_append)
      obtain ⟨item, operation, hreplace⟩ := hmiddle.replace directive.mark
      obtain ⟨read, contents, hread, hpairs, rfl⟩ := operation.of_bytes directive.name
      have hnext : (Cursor.mk [] later).nextIs .comma = false :=
        hlater.nextIs_comma (d := ⟨later.reverse, []⟩) ⟨by simp, by simp⟩ rfl
      obtain ⟨rfl, rfl, rfl⟩ := directive.list.unique hread hlist ends hnext
      obtain ⟨first', hfirst, hcorresponds⟩ := hearlier.respelled (.of_views [] hviews)
      obtain ⟨middle', hmiddle', hcorresponds'⟩ := hreplace front' head' _ _ hviews'
        (Grammar.kind_of_isNamed directive'.name) (directive'.operation digits hpairs) (.data _)
      obtain ⟨last', hlast, hcorresponds''⟩ := hlater.respelled (.of_views [] behind)
      refine ⟨first' ++ (middle' ++ last'), ?_,
        List.rel_append hcorresponds (List.rel_append hcorresponds' hcorresponds'')⟩
      simpa using hfirst.append (.cons hmiddle' hlast)

/-- A text stays assembled, to the same image, when the digits of a directive are grouped
otherwise. -/
theorem assembleSource_regrouped {source source' : List Char} {tokens tokens' : List Token}
    (hscan : scan source = .ok tokens) (hscan' : scan source' = .ok tokens')
    (hregrouped : Regrouped tokens tokens') {binary : Binary}
    (h : assembleSource source = .ok binary) :
    ∃ binary', assembleSource source' = .ok binary' ∧ binary.Alike binary' := by
  obtain ⟨read, hread, hphrase, -, -⟩ := exists_phrase_of_assembleSource h
  obtain ⟨read', hread', hassemble⟩ := assembleSource_eq_ok_iff.mp h
  rw [hscan] at hread hread'
  cases hread
  cases hread'
  obtain ⟨items', hphrase', hitems⟩ := hphrase.regrouped hregrouped
  obtain ⟨binary', hbinary', halike⟩ := exists_alike_of_corresponds hphrase hphrase' hitems
    hassemble
  exact ⟨binary', assembleSource_eq_ok_iff.mpr ⟨tokens', hscan', hbinary'⟩, halike⟩

/-! ## The digits of a directive -/

/-- **Directives copy digits.** A `byte` directive of hexadecimal literals, whatever their lengths,
takes the digits behind the marks `0x`, joined. If their number is odd, the directive is refused as
a whole, with its literals listed, and so is a text that can be read up to there. Else it comes to
half as many bytes as there are digits, which are written with these digits, in capitals. No text is
told that a digit is none. And a text that is assembled is assembled to the same image, symbols and
entries when the digits are grouped otherwise. -/
theorem byte_directive_copies_digits :
    (∀ (head equals : Token) (taken literals before rest : List Token),
      BytesDirective head equals taken literals → (∀ t ∈ taken, t.isShaped = true) →
      (Cursor.mk [] rest).nextIs .comma = false →
      ((literals.flatMap Token.digits).length % 2 = 1 →
        Reader.operation ⟨before, head :: equals :: (taken ++ rest)⟩ =
            .error ⟨.unencodable (.oddDigitCount (", ".intercalate (literals.map Token.lexeme))),
              spanOver head (equals :: taken)⟩ ⟨taken.reverse ++ equals :: head :: before, rest⟩ ∧
          ∀ earlier front items, ProgramPhrase earlier items → LabelPhrase front →
            assembleTokens (earlier ++ (front ++ head :: equals :: (taken ++ rest))) =
              .error ⟨.unencodable (.oddDigitCount (", ".intercalate (literals.map Token.lexeme))),
                spanOver head (equals :: taken)⟩) ∧
      ((literals.flatMap Token.digits).length % 2 = 0 →
        ∃ contents : List UInt8, 2 * contents.length = (literals.flatMap Token.digits).length ∧
          (contents.flatMap fun b => (byteHex b).toList) =
            (literals.flatMap Token.digits).map Char.toUpper ∧
          Reader.operation ⟨before, head :: equals :: (taken ++ rest)⟩ =
            .ok ⟨.data (.bytes contents), spanOver head (equals :: taken)⟩
              ⟨taken.reverse ++ equals :: head :: before, rest⟩)) ∧
      (∀ source digits location,
        assembleSource source ≠ .error (.program (.malformed (.notHexadecimal digits)) location)) ∧
      ∀ source source' tokens tokens' binary, scan source = .ok tokens →
        scan source' = .ok tokens' → Regrouped tokens tokens' →
        assembleSource source = .ok binary →
        ∃ binary', assembleSource source' = .ok binary' ∧ binary'.image = binary.image ∧
          binary'.symbols.toList = binary.symbols.toList ∧
          binary'.entries.map Entry.unplaced = binary.entries.map Entry.unplaced := by
  refine ⟨fun head equals taken literals before rest hdirective hshaped hnext => ?_,
    assembleSource_ne_notHexadecimal,
    fun source source' tokens tokens' binary hscan hscan' hregrouped hbinary => ?_⟩
  · have hread := Reader.operation_of_bytes hdirective hnext before
    obtain ⟨hodd, heven⟩ := bytesOfLiterals_of_hex
      (Grammar.isHexDigit_of_literals hdirective.list hshaped) (spanOver head (equals :: taken))
    refine ⟨fun hcount => ?_, fun hcount => ?_⟩
    · rw [hodd hcount] at hread
      exact ⟨hread, fun _ _ _ hearlier hfront =>
        assembleTokens_of_bytes hearlier hfront hdirective hnext (hodd hcount)⟩
    · obtain ⟨contents, hpairs, hcontents⟩ := heven hcount
      rw [hcontents] at hread
      obtain ⟨hdigits, hlength⟩ := hex_of_bytesOfDigits hpairs
      exact ⟨contents, hlength, hdigits, hread⟩
  · obtain ⟨binary', hbinary', halike⟩ := assembleSource_regrouped hscan hscan' hregrouped hbinary
    exact ⟨binary', hbinary', halike.image, halike.symbols, halike.entries⟩

end ArmAssembly
