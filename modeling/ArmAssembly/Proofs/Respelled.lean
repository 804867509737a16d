import ArmAssembly.Proofs.NumberPlaces
import ArmAssembly.Proofs.Recased

set_option autoImplicit false

/-! # Numbers that are spelled otherwise

A number may be written in either base, with any number of leading zeros, and with or without the
mark in front of it. Outside of `byte` directives only its value counts: in each place it is taken
or refused by one comparison with the width of the place (`Token.TakenByValue`), and a program stays
the same program when its numbers are spelled otherwise (`ProgramPhrase.respelled`). In a `byte`
directive the digits themselves are copied, so there the literals have to stay.
-/

namespace ArmAssembly

/-! ## Tokens that are spelled otherwise

Whether a number may be spelled otherwise depends on what stands before it: in the list of a `byte`
directive it may not. So the relation goes through the tokens from left to right and remembers those
before. -/

/-- The token is the same, be it at another place, or both are numbers of the same value. -/
inductive Token.Respelled (t u : Token) : Prop where
  | same (view : u.view = t.view)
  | number (numeric : t.kind.isNumeric = true) (numeric' : u.kind.isNumeric = true)
      (value : u.value = t.value)

namespace Token.Respelled

variable {t u : Token}

theorem sameMeaning (h : t.Respelled u) : t.SameMeaning u := by
  cases h with
  | same view =>
      exact .alike ⟨congrArg Prod.fst view, congrArg (folded ∘ Prod.snd) view⟩
  | number numeric numeric' value => exact .number numeric numeric' value

/-- A word is no number, so it is the same word. -/
theorem word (h : t.Respelled u) (hword : t.kind = .word) :
    u.kind = .word ∧ u.lexeme = t.lexeme := by
  cases h with
  | same view => exact ⟨(congrArg Prod.fst view).trans hword, congrArg Prod.snd view⟩
  | number numeric =>
      rw [hword] at numeric
      cases numeric

end Token.Respelled

/-- The tokens end inside a `byte` directive, in front of one of its literals or behind one. -/
def EndsInBytes (earlier : List Token) : Prop :=
  ∃ u head equals listed, earlier = u ++ head :: equals :: listed ∧
    head.isNamed "byte" = true ∧ equals.kind = .equals ∧
    ∀ t ∈ listed, t.kind = .hexNumber ∨ t.kind = .comma

/-- Behind the tokens `earlier`, all tokens are the same but for numbers outside of `byte`
directives, which may be spelled otherwise. -/
inductive RespelledBehind : List Token → List Token → List Token → Prop where
  | nil (earlier : List Token) : RespelledBehind earlier [] []
  | same {earlier tokens tokens' : List Token} {t u : Token} (view : u.view = t.view)
      (rest : RespelledBehind (earlier ++ [t]) tokens tokens') :
      RespelledBehind earlier (t :: tokens) (u :: tokens')
  | number {earlier tokens tokens' : List Token} {t u : Token} (outside : ¬ EndsInBytes earlier)
      (numeric : t.kind.isNumeric = true) (numeric' : u.kind.isNumeric = true)
      (value : u.value = t.value) (rest : RespelledBehind (earlier ++ [t]) tokens tokens') :
      RespelledBehind earlier (t :: tokens) (u :: tokens')

namespace RespelledBehind

variable {earlier tokens tokens' : List Token}

theorem forall₂ (h : RespelledBehind earlier tokens tokens') :
    List.Forall₂ Token.Respelled tokens tokens' := by
  induction h with
  | nil => exact .nil
  | same view _ ih => exact .cons (.same view) ih
  | number _ numeric numeric' value _ ih => exact .cons (.number numeric numeric' value) ih

/-- Tokens that stand elsewhere are respelled. -/
theorem of_views (earlier : List Token) (h : tokens'.map Token.view = tokens.map Token.view) :
    RespelledBehind earlier tokens tokens' := by
  induction tokens generalizing earlier tokens' with
  | nil =>
      rw [List.map_nil, List.map_eq_nil_iff] at h
      rw [h]
      exact .nil _
  | cons t tokens ih =>
      rw [List.map_cons, List.map_eq_cons_iff] at h
      obtain ⟨u, rest, rfl, hview, hrest⟩ := h
      exact .same hview (ih _ hrest)

/-- Two parts are respelled one behind the other. -/
theorem split {u v w : List Token} (h : RespelledBehind earlier (u ++ v) w) :
    ∃ u' v', RespelledBehind earlier u u' ∧ RespelledBehind (earlier ++ u) v v' ∧
      w = u' ++ v' := by
  induction u generalizing earlier w with
  | nil => exact ⟨[], w, .nil _, by rwa [List.append_nil], rfl⟩
  | cons t u ih =>
      rw [List.cons_append] at h
      cases h with
      | same view rest =>
          obtain ⟨u', v', hu, hv, rfl⟩ := ih rest
          rw [List.append_assoc, List.singleton_append] at hv
          exact ⟨_, v', .same view hu, hv, rfl⟩
      | number outside numeric numeric' value rest =>
          obtain ⟨u', v', hu, hv, rfl⟩ := ih rest
          rw [List.append_assoc, List.singleton_append] at hv
          exact ⟨_, v', .number outside numeric numeric' value hu, hv, rfl⟩

/-- The literals of a `byte` directive stay as they are. -/
theorem views_of_bytes (h : RespelledBehind earlier tokens tokens')
    (hearlier : EndsInBytes earlier)
    (hlisted : ∀ t ∈ tokens, t.kind = .hexNumber ∨ t.kind = .comma) :
    List.Forall₂ (fun t u => u.view = t.view) tokens tokens' := by
  induction h with
  | nil => exact .nil
  | number outside => exact absurd hearlier outside
  | @same earlier tokens tokens' t u view _ ih =>
      obtain ⟨v, head, equals, listed, rfl, hname, hmark, hkinds⟩ := hearlier
      refine .cons view (ih ⟨v, head, equals, listed ++ [t], by simp, hname, hmark, ?_⟩
        fun s hs => hlisted s (List.mem_cons_of_mem _ hs))
      intro s hs
      rcases List.mem_append.mp hs with hs | hs
      · exact hkinds s hs
      · exact hlisted s (List.mem_singleton.mp hs ▸ List.mem_cons_self)

end RespelledBehind

/-! ## Phrases of respelled tokens -/

section Phrases

variable {m : Mnemonic} {earlier taken taken' w : List Token} {item : Item} {head : Token}

theorem same_of_respelled (h : List.Forall₂ Token.Respelled taken taken') :
    List.Forall₂ Token.SameMeaning taken taken' :=
  h.imp fun _ _ => Token.Respelled.sameMeaning

theorem BranchPhrase.respelled {link : Bool} (h : BranchPhrase m link taken item)
    (hrespelled : List.Forall₂ Token.Respelled taken taken') :
    ∃ item', BranchPhrase m link taken' item' ∧ item.Corresponds SameName item' := by
  cases h with
  | offset hnumber =>
      obtain ⟨u, hu, rfl⟩ := forall₂_one.mp (same_of_respelled hrespelled)
      exact ⟨_, .offset (hu.numberIn hnumber), .offset _ _ _⟩
  | label hword =>
      obtain ⟨u, hu, rfl⟩ := forall₂_one.mp hrespelled
      exact ⟨_, .label (hu.word hword).1, .branch _ _ (hu.word hword).2⟩

theorem MovePhrase.respelled (h : MovePhrase m taken item)
    (hrespelled : List.Forall₂ Token.Respelled taken taken') :
    ∃ item', MovePhrase m taken' item' ∧ item.Corresponds SameName item' := by
  obtain ⟨d, comma, s, hform⟩ : ∃ d comma s, taken = [d, comma, s] := by
    cases h <;> exact ⟨_, _, _, rfl⟩
  subst hform
  obtain ⟨d', comma', s', hd, hc, hs, rfl⟩ := forall₂_three.mp hrespelled
  cases h with
  | immediate hform hdestination hseparator hnumber =>
      exact ⟨_, .immediate hform (hd.sameMeaning.register hdestination)
        (hc.sameMeaning.kind hseparator rfl) (hs.sameMeaning.numberIn hnumber), .instruction _⟩
  | register hform hdestination hseparator hsource =>
      exact ⟨_, .register hform (hd.sameMeaning.register hdestination)
        (hc.sameMeaning.kind hseparator rfl) (hs.sameMeaning.register hsource), .instruction _⟩
  | label hform hdestination hseparator hword =>
      exact ⟨_, .label hform (hd.sameMeaning.register hdestination)
        (hc.sameMeaning.kind hseparator rfl) (hs.word hword).1, .loadLabel _ _ (hs.word hword).2⟩

theorem OperandsPhrase.respelled (h : OperandsPhrase m taken item)
    (hrespelled : List.Forall₂ Token.Respelled taken taken') :
    ∃ item', OperandsPhrase m taken' item' ∧ item.Corresponds SameName item' := by
  unfold OperandsPhrase at h ⊢
  cases hbase : m.base with
  | branch | branchLink =>
      rw [hbase] at h
      exact h.respelled hrespelled
  | move | moveWide =>
      rw [hbase] at h
      exact h.respelled hrespelled
  | and | orr | add | sub | compare | moveTop | load | loadByte | store | push | pop =>
      -- all other operands ask for an instruction, which has no names
      rw [hbase] at h
      obtain ⟨i, rfl⟩ : ∃ i, item = .instruction i := by
        cases h
        exact ⟨_, rfl⟩
      exact ⟨_, h.same (same_of_respelled hrespelled), .instruction i⟩

/-- The tokens of a list are commas and items. -/
theorem ListPhrase.comma_or_item {α : Type} {convert : Token → Except Problem α} {values : List α}
    (h : ListPhrase convert taken values) :
    ∀ t ∈ taken, t.kind = .comma ∨ ∃ a, convert t = .ok a := by
  have hrest {taken : List Token} {values : List α} (h : RestPhrase convert taken values) :
      ∀ t ∈ taken, t.kind = .comma ∨ ∃ a, convert t = .ok a := by
    induction h with
    | done => nofun
    | more separator item _ ih =>
        exact List.forall_mem_cons.mpr
          ⟨.inl separator, List.forall_mem_cons.mpr ⟨.inr ⟨_, item⟩, ih⟩⟩
  cases h with
  | intro item rest => exact List.forall_mem_cons.mpr ⟨.inr ⟨_, item⟩, hrest rest⟩

/-- The tokens of a list of literals are hexadecimal numbers and commas. -/
theorem kinds_of_literals {literals : List Token} (h : ListPhrase Token.hexLiteral taken literals) :
    ∀ t ∈ taken, t.kind = .hexNumber ∨ t.kind = .comma := by
  intro t ht
  rcases h.comma_or_item t ht with hcomma | ⟨_, hitem⟩
  · exact .inr hcomma
  · exact .inl (Token.hexLiteral_eq_ok_iff.mp hitem).1

theorem digits_of_views {literals literals' : List Token}
    (h : List.Forall₂ (fun t u => u.view = t.view) literals literals') :
    literals'.flatMap Token.digits = literals.flatMap Token.digits := by
  induction h with
  | nil => rfl
  | @cons t u _ _ htu _ ih =>
      have hkind : u.kind = t.kind := congrArg Prod.fst htu
      have hlexeme : u.lexeme = t.lexeme := congrArg Prod.snd htu
      rw [List.flatMap_cons, List.flatMap_cons, ih, Token.digits, Token.digits, hkind, hlexeme]

/-- Literals that stay as they are have the same digits. -/
theorem ListPhrase.literals_of_views {literals : List Token}
    (h : ListPhrase Token.hexLiteral taken literals)
    (hviews : List.Forall₂ (fun t u => u.view = t.view) taken taken') :
    ∃ literals', ListPhrase Token.hexLiteral taken' literals' ∧
      literals'.flatMap Token.digits = literals.flatMap Token.digits := by
  have hkind {t u : Token} (htu : u.view = t.view) : u.kind = t.kind := congrArg Prod.fst htu
  obtain ⟨literals', hphrase, hliterals⟩ :=
    h.related hviews (fun _ _ htu => (hkind htu).trans) fun t u a htu ha => by
      obtain ⟨hhex, rfl⟩ := Token.hexLiteral_eq_ok_iff.mp ha
      exact ⟨u, Token.hexLiteral_eq_ok_iff.mpr ⟨(hkind htu).trans hhex, rfl⟩, htu⟩
  exact ⟨literals', hphrase, digits_of_views hliterals⟩

/-- An operation that is respelled asks for the same. -/
theorem OperationPhrase.respelled (h : OperationPhrase head taken item)
    (hword : head.kind = .word) (hrespelled : RespelledBehind earlier (head :: taken) w) :
    ∃ head' taken' item', w = head' :: taken' ∧ head'.kind = .word ∧
      OperationPhrase head' taken' item' ∧ item.Corresponds SameName item' := by
  obtain ⟨u', taken', hu, htaken, rfl⟩ := RespelledBehind.split (u := [head]) hrespelled
  obtain ⟨head', hhead, rfl⟩ := forall₂_one.mp hu.forall₂
  have halike := hhead.sameMeaning.alike_of_kind hword rfl
  have hkind := (hhead.word hword).1
  cases h with
  | @bytes equals taken literals _ name mark list pairs =>
      obtain ⟨v', rest', hv, hrest, rfl⟩ := RespelledBehind.split (u := [equals]) htaken
      obtain ⟨equals', hequals, rfl⟩ := forall₂_one.mp hv.forall₂
      -- behind the mark the literals are the same, so the digits are
      have hviews := hrest.views_of_bytes
        ⟨earlier, head, equals, [], by simp, name, mark, nofun⟩ (kinds_of_literals list)
      obtain ⟨literals', hphrase, hdigits⟩ := list.literals_of_views hviews
      exact ⟨head', _, _, rfl, hkind, .bytes ((halike.isNamed _).trans name)
        (hequals.sameMeaning.kind mark rfl) hphrase (hdigits ▸ pairs), .data _⟩
  | words name mark list =>
      obtain ⟨equals, rest, he, hlist, rfl⟩ :=
        List.forall₂_cons_left_iff.mp (same_of_respelled htaken.forall₂)
      exact ⟨head', _, _, rfl, hkind, .words ((halike.isNamed _).trans name)
        (he.kind mark rfl) (list.same hlist fun _ _ _ htu => htu.dataWord), .data _⟩
  | instruction name operands =>
      obtain ⟨item', hoperands, hitem⟩ := operands.respelled htaken.forall₂
      exact ⟨head', taken', item', rfl, hkind,
        .instruction (halike.ofWord?.trans name) hoperands, hitem⟩

end Phrases

/-! ## Programs of respelled tokens

Nothing is asked of the tokens before a statement, but they are handed on, since the numbers of a
later statement are judged by all tokens before them. -/

section Programs

variable {earlier tokens tokens' : List Token} {items : Program}

theorem StatementPhrase.respelled (h : StatementPhrase tokens items)
    (hrespelled : RespelledBehind earlier tokens tokens') :
    ∃ items', StatementPhrase tokens' items' ∧ Program.Corresponds SameName items items' := by
  cases h with
  | plain word operation =>
      obtain ⟨head', rest', item', rfl, hhead, hphrase, hitem⟩ :=
        operation.respelled word hrespelled
      exact ⟨_, .plain hhead hphrase, .cons (.operation _ _ hitem) .nil⟩
  | @labelled name colon head taken item label mark word operation =>
      obtain ⟨u', v', hu, hv, rfl⟩ := RespelledBehind.split (u := [name, colon]) hrespelled
      obtain ⟨name', _, hname, hrest, rfl⟩ := List.forall₂_cons_left_iff.mp hu.forall₂
      obtain ⟨colon', hcolon, rfl⟩ := forall₂_one.mp hrest
      obtain ⟨head', rest', item', rfl, hhead, hphrase, hitem⟩ := operation.respelled word hv
      have hlabel : SameName name.name name'.name := (hname.word label).2
      exact ⟨_, .labelled (hname.word label).1 (hcolon.sameMeaning.kind mark rfl) hhead hphrase,
        .cons (.label hlabel) (.cons (.operation _ _ hitem) .nil)⟩

/-- **The spelling of numbers does not matter.** A program whose numbers outside of `byte`
directives are spelled otherwise asks for the same. -/
theorem ProgramPhrase.respelled (h : ProgramPhrase tokens items)
    (hrespelled : RespelledBehind earlier tokens tokens') :
    ∃ items', ProgramPhrase tokens' items' ∧ Program.Corresponds SameName items items' := by
  induction h generalizing earlier tokens' with
  | nil =>
      cases hrespelled
      exact ⟨[], .nil, .nil⟩
  | cons statement _ ih =>
      obtain ⟨u', v', hu, hv, rfl⟩ := hrespelled.split
      obtain ⟨items', hphrase, hfirst⟩ := statement.respelled hu
      obtain ⟨more', hphrase', hsecond⟩ := ih hv
      exact ⟨items' ++ more', .cons hphrase hphrase', List.rel_append hfirst hsecond⟩

end Programs

/-! ## What the value decides -/

/-- What becomes of the number is decided by its value: it is taken in a place just if it is below
two to the width of the place, and as a constant just if it is a turned byte. What is taken is the
value itself, and what is refused is named as it is written. -/
structure Token.TakenByValue (t : Token) : Prop where
  narrowed : ∀ w ≤ 64, (Field.ofDigits? 64 t.base t.digits).bind (Field.narrow? w) =
    Field.ofNat? w t.value
  number : ∀ (m : Mnemonic) (place : OperandPlace) (lead : List Token)
    (item : BitVec place.width → Item), m.AwaitsNumber place lead item →
    ∀ (head : Token) (before rest : List Token), head.kind = .word →
      Mnemonic.ofWord? head.lexeme = some m →
      (t.value < 2 ^ place.width → ∃ bits : BitVec place.width, bits.toNat = t.value ∧
        Reader.operation ⟨before, head :: (lead ++ t :: rest)⟩ =
          .ok ⟨item bits, ⟨head.span.start, t.span.stop⟩⟩
            ⟨t :: (lead.reverse ++ head :: before), rest⟩) ∧
      (2 ^ place.width ≤ t.value →
        Reader.operation ⟨before, head :: (lead ++ t :: rest)⟩ =
          .error (t.unencodable (.tooWide t.lexeme place))
            ⟨t :: (lead.reverse ++ head :: before), rest⟩)
  constant : ∀ (m : Mnemonic) (lead : List Token) (item : RotatedByte → Item),
    m.AwaitsConstant lead item →
    ∀ (head : Token) (before rest : List Token), head.kind = .word →
      Mnemonic.ofWord? head.lexeme = some m →
      (IsTurnedByte t.value → ∃ b : RotatedByte, b.constant.toNat = t.value ∧
        Reader.operation ⟨before, head :: (lead ++ t :: rest)⟩ =
          .ok ⟨item b, ⟨head.span.start, t.span.stop⟩⟩
            ⟨t :: (lead.reverse ++ head :: before), rest⟩) ∧
      (¬ IsTurnedByte t.value →
        Reader.operation ⟨before, head :: (lead ++ t :: rest)⟩ =
          .error (t.unencodable (.noRotatedForm t.lexeme))
            ⟨t :: (lead.reverse ++ head :: before), rest⟩)
  dataWord : ∀ lead, Reader.ListLead Token.dataWord lead →
    ∀ (head equals : Token) (before rest : List Token), head.isNamed "word" = true →
      equals.kind = .equals → 2 ^ 32 ≤ t.value →
        Reader.operation ⟨before, head :: equals :: (lead ++ t :: rest)⟩ =
          .error (t.unencodable (.tooWide t.lexeme .dataWord))
            ⟨t :: (lead.reverse ++ equals :: head :: before), rest⟩

theorem Token.takenByValue {t : Token} (hnumeric : t.kind.isNumeric = true) : t.TakenByValue where
  narrowed w hle := Field.narrow_ofDigits t.base_pos hle t.digits
  number m place lead item hawaits head before rest hword hname := by
    obtain ⟨hfits, hwide⟩ := t.field_eq_of_value place
    have hread := (Reader.decidedBy_number hawaits).operation hword hname before rest hnumeric
    refine ⟨fun hlt => ?_, fun hle => ?_⟩
    · obtain ⟨bits, hbits, hfield⟩ := hfits hlt
      rw [hfield] at hread
      exact ⟨bits, hbits, hread⟩
    · rw [hwide hle] at hread
      exact hread
  constant m lead item hawaits head before rest hword hname := by
    obtain ⟨hturned, hnone⟩ := t.rotatedByte_eq_of_value
    have hread := (Reader.decidedBy_constant hawaits).operation hword hname before rest hnumeric
    refine ⟨fun hbyte => ?_, fun hnot => ?_⟩
    · obtain ⟨b, hb, hconstant⟩ := hturned hbyte
      rw [hconstant] at hread
      exact ⟨b, hb, hread⟩
    · rw [hnone hnot] at hread
      exact hread
  dataWord lead hlead head equals before rest hname hmark hle := by
    refine Reader.operation_of_words_error hname hmark hlead ?_ before rest
    have hword : t.numberIn .dataWord = .error (t.unencodable (.tooWide t.lexeme .dataWord)) := by
      rw [numberIn_of_numeric hnumeric, (t.field_eq_of_value .dataWord).2 hle]
    exact hword

/-- **Numbers mean their value.** Let a text be scanned. Each number in it is a literal, of any
length, that stands for the exact number its digits spell, and this number decides what becomes of
it. A `word` directive of numbers that fit has their values for its words. A register is the one
with the number that its digits spell, if there is one. And the tokens still form the same program,
but for the places of its items, when numbers outside of `byte` directives are spelled otherwise. -/
theorem numbers_mean_value {source : List Char} {tokens : List Token}
    (hscan : scan source = .ok tokens) :
    (∀ t ∈ tokens, t.kind.isNumeric = true →
      t.IsLiteral ∧ t.value = Nat.ofDigits t.base (t.digits.reverse.map digitValue) ∧
        t.TakenByValue) ∧
      (∀ (head equals : Token) (taken numbers before rest : List Token),
        head.isNamed "word" = true → equals.kind = .equals →
        ListPhrase Token.numeric taken numbers →
        (∀ n ∈ taken, n.kind.isNumeric = true → n.value < 2 ^ 32) →
        (Cursor.mk [] rest).nextIs .comma = false →
        ∃ contents : List (BitVec 32), contents.map BitVec.toNat = numbers.map Token.value ∧
          Reader.operation ⟨before, head :: equals :: (taken ++ rest)⟩ =
            .ok ⟨.data (.words contents), spanOver head (equals :: taken)⟩
              ⟨taken.reverse ++ equals :: head :: before, rest⟩) ∧
      (∀ t ∈ tokens, ∀ digits, t.IsRegisterWord digits →
        (Field.ofDigits? 32 10 digits).bind (Field.narrow? 4) =
            Field.ofNat? 4 (Nat.ofDigits 10 (digits.reverse.map digitValue)) ∧
          (Nat.ofDigits 10 (digits.reverse.map digitValue) < 16 → ∃ r : Register,
            r.number.toNat = Nat.ofDigits 10 (digits.reverse.map digitValue) ∧
              t.register = .ok r) ∧
          (16 ≤ Nat.ofDigits 10 (digits.reverse.map digitValue) →
            t.register = .error (t.unencodable (.noSuchRegister t.lexeme)))) ∧
      ∀ tokens' s, RespelledBehind [] tokens tokens' →
        Transcript.pass.run tokens .empty = .ok () s →
          ∃ s', Transcript.pass.run tokens' .empty = .ok () s' ∧
            Program.unplaced s'.result.calls = Program.unplaced s.result.calls := by
  refine ⟨fun t ht hnumeric => ?_, fun head equals taken numbers before rest hname hmark hlist
    hfit hnext => Reader.operation_of_words hname hmark hlist hfit hnext before,
    fun t _ digits hregister => ?_, fun tokens' s hrespelled hrun => ?_⟩
  · have hliteral := Token.isLiteral_of_isShaped (isShaped_of_scan hscan t ht) hnumeric
    exact ⟨hliteral, hliteral.value, Token.takenByValue hnumeric⟩
  · rw [← numeralValue_eq_ofDigits]
    exact ⟨Field.narrow_ofDigits (by decide) (by decide) digits,
      Token.register_eq_of_value hregister⟩
  · obtain ⟨items', hphrase, hitems⟩ :=
      (Transcript.exists_run_iff.mp ⟨s, hrun, rfl⟩).respelled hrespelled
    obtain ⟨s', hrun', hcalls⟩ := Transcript.exists_run_iff.mpr hphrase
    exact ⟨s', hrun', by rw [hcalls, hitems.unplaced]⟩

/-- The tokens of `MOVi R1, #0x0010`, with the number as it is given. -/
def moveSixteen (kind : TokenKind) (number : String) : List Token :=
  [⟨.word, "MOVi", ⟨0, 4⟩⟩, ⟨.word, "R1", ⟨5, 7⟩⟩, ⟨.comma, ",", ⟨7, 8⟩⟩, ⟨kind, number, ⟨9, 16⟩⟩]

/-- Sixteen in base ten, with no zeros in front of it. -/
theorem numbers_mean_value_sixteen :
    scan "MOVi R1, #0x0010".toList = .ok (moveSixteen .hexNumber "0x0010") ∧
      ∃ s, Transcript.pass.run (moveSixteen .number "16") .empty = .ok () s ∧
        Program.unplaced s.result.calls =
          [.instruction ⟨.always, .moveWide .bottom ⟨1⟩ 16⟩] := by
  have hscan : scan "MOVi R1, #0x0010".toList = .ok (moveSixteen .hexNumber "0x0010") := by cbv
  have hphrase : ProgramPhrase (moveSixteen .hexNumber "0x0010")
      [⟨.instruction ⟨.always, .moveWide .bottom ⟨1⟩ 16⟩, ⟨0, 16⟩⟩] :=
    .cons
      (.plain rfl
        (.instruction (m := ⟨.move, .always, some .immediate⟩) (by decide)
          (.immediate rfl (by decide) rfl (by decide))))
      .nil
  have houtside : ¬ EndsInBytes [⟨.word, "MOVi", ⟨0, 4⟩⟩, ⟨.word, "R1", ⟨5, 7⟩⟩,
      ⟨.comma, ",", ⟨7, 8⟩⟩] := by
    rintro ⟨u, head, equals, listed, heq, hname, -, -⟩
    have hmem : head ∈ u ++ head :: equals :: listed := by simp
    rw [← heq] at hmem
    fin_cases hmem <;> revert hname <;> decide
  obtain ⟨s, hrun, hcalls⟩ := Transcript.exists_run_iff.mpr hphrase
  obtain ⟨s', hrun', hsame⟩ := (numbers_mean_value hscan).2.2.2 (moveSixteen .number "16") s
    (.same rfl (.same rfl (.same rfl (.number houtside rfl rfl (by decide) (.nil _))))) hrun
  exact ⟨hscan, s', hrun', by rw [hsame, hcalls]; rfl⟩

end ArmAssembly
