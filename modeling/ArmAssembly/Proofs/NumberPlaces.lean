import ArmAssembly.Proofs.Alike
import ArmAssembly.Proofs.Literals
import ArmAssembly.Proofs.Statements

set_option autoImplicit false

/-! # The places where numbers stand

In an instruction a number stands in the last place. Behind operands that are in order the reader
makes its choice by this number alone: it takes the number or fails with the problem of that one
token (`Reader.DecidedBy`). The numbers of a `word` directive are converted one after the other up
to the first that fails (`Reader.list_of_error`).
-/

namespace ArmAssembly

namespace Reader

/-! ## Readers that one number decides

What a reader does is fixed by one token if it goes through the tokens before it without a choice.
Readers that are put behind one another are decided by the number of the last one. -/

section

variable {α β γ : Type}

/-- The outcome of a conversion at a place between tokens. -/
def outcomeAt (converted : Except Problem α) (result : α → β) (c : Cursor) :
    EStateM.Result Problem Cursor β :=
  match converted with
  | .ok a => .ok (result a) c
  | .error problem => .error problem c

theorem bind_of_outcomeAt {r : Reader β} {k : β → Reader γ} {c d : Cursor}
    {converted : Except Problem α} {result : α → β} {g : β → γ}
    (h : r c = outcomeAt converted result d) (hk : ∀ b, k b d = .ok (g b) d) :
    (r >>= k) c = outcomeAt converted (g ∘ result) d := by
  cases converted with
  | ok a => exact (bind_of_ok h).trans (hk _)
  | error problem => exact bind_of_error h

/-- Behind the tokens `lead`, the number that comes next decides whether the reader succeeds, and
with what. -/
def DecidedBy (r : Reader β) (lead : List Token) (convert : Token → Except Problem α)
    (result : α → β) : Prop :=
  ∀ (before : List Token) (t : Token) (rest : List Token), t.kind.isNumeric = true →
    r ⟨before, lead ++ t :: rest⟩ =
      outcomeAt (convert t) result ⟨t :: (lead.reverse ++ before), rest⟩

variable {lead : List Token} {convert : Token → Except Problem α} {result : α → β}

namespace DecidedBy

theorem map {r : Reader β} (h : r.DecidedBy lead convert result) (f : β → γ) :
    (do return f (← r) : Reader γ).DecidedBy lead convert (f ∘ result) :=
  fun before t rest hnumeric => bind_of_outcomeAt (h before t rest hnumeric) fun _ => rfl

/-- A reader that takes other tokens first. -/
theorem behind {r : Reader γ} {k : γ → Reader β} {c : γ} {u : List Token}
    (hr : ∀ before t rest, r ⟨before, u ++ (lead ++ t :: rest)⟩ =
      .ok c ⟨u.reverse ++ before, lead ++ t :: rest⟩)
    (hk : (k c).DecidedBy lead convert result) :
    (r >>= k).DecidedBy (u ++ lead) convert result := by
  intro before t rest hnumeric
  rw [List.append_assoc, bind_of_ok (hr before t rest), hk _ t rest hnumeric,
    List.reverse_append, List.append_assoc]

theorem of_number (convert : Token → Except Problem α) :
    (do ofExcept (convert (← number)) : Reader α).DecidedBy [] convert id := by
  intro before t rest hnumeric
  have hnumber : number ⟨before, t :: rest⟩ = .ok t ⟨t :: before, rest⟩ :=
    converts_number.iff.mpr ⟨t, Cursor.takes_singleton.mpr ⟨rest, rfl, rfl⟩,
      Token.numeric_eq_ok_iff.mpr ⟨hnumeric, rfl⟩⟩
  rw [List.nil_append, bind_of_ok hnumber]
  cases hconvert : convert t <;> rfl

theorem field (place : OperandPlace) : (field place).DecidedBy [] (·.field place) id :=
  of_number _

variable {d comma : Token} {destination : Register}

/-- A register in front of the other operands. -/
theorem behindRegister {k : Register → Reader β} (hd : d.register = .ok destination)
    (hk : (k destination).DecidedBy lead convert result) :
    (register >>= k).DecidedBy (d :: lead) convert result := by
  refine behind (u := [d]) (fun before t rest => ?_) hk
  exact converts_register.iff.mpr ⟨d, Cursor.takes_singleton.mpr ⟨_, rfl, rfl⟩, hd⟩

/-- A comma in front of the other operands. -/
theorem behindComma {k : Unit → Reader β} (hcomma : comma.kind = .comma)
    (hk : (k ()).DecidedBy lead convert result) :
    (Reader.comma >>= k).DecidedBy (comma :: lead) convert result := by
  refine behind (u := [comma]) (fun before t rest => ?_) hk
  exact comma_eq_ok_iff.mpr ⟨comma, Cursor.takes_singleton.mpr ⟨_, rfl, rfl⟩, hcomma⟩

/-- Flags, or none, in front of a register. -/
theorem behindFlags {base : BaseName} {accepted : String} {earlier : List Token}
    {letters : List Char} {k : List Char → Reader β} (hflags : FlagPhrase accepted earlier letters)
    (hd : d.register = .ok destination)
    (hk : (k letters).DecidedBy (d :: lead) convert result) :
    (flags base accepted >>= k).DecidedBy (earlier ++ d :: lead) convert result := by
  refine behind (fun before t rest => ?_) hk
  refine flags_eq_ok_iff.mpr ⟨earlier, ⟨rfl, rfl⟩, hflags, fun hnil => ?_⟩
  simp [hnil, Cursor.nextIs, Token.kind_of_register hd]

/-- The last operand, where the suffix asks for a number. -/
theorem operand {head : Token} {suffix : Option Suffix} {number : Reader α} {first : α → α}
    (hsuffix : suffix = some .immediate) (h : number.DecidedBy lead convert first) :
    (operand head suffix number).DecidedBy lead convert (Operand.immediate ∘ first) := by
  subst hsuffix
  exact h.map Operand.immediate

end DecidedBy

end

end Reader

/-! ## Operands that end in a number

The last operand of most instructions may be a number, and the word and its suffix determine the
place that it goes to. In arithmetic instructions it is a constant instead, which is taken by its
form and not by its width. -/

/-- The transfers, by their mnemonics. -/
def BaseName.transfer? : BaseName → Option TransferKind
  | .load => some .load
  | .loadByte => some .loadByte
  | .store => some .store
  | _ => none

/-- The arithmetic instructions, by their mnemonics. -/
def BaseName.arithmetic? : BaseName → Option Arithmetic
  | .and => some .and
  | .orr => some .orr
  | .add => some .add
  | .sub => some .sub
  | _ => none

/-- The branches, by their mnemonics, and whether they link. -/
def BaseName.branch? : BaseName → Option Bool
  | .branch => some false
  | .branchLink => some true
  | _ => none

/-- Behind the tokens `lead`, an instruction with the mnemonic `m` takes a number in a place, which
makes it the item. -/
inductive Mnemonic.AwaitsNumber (m : Mnemonic) :
    (place : OperandPlace) → List Token → (BitVec place.width → Item) → Prop where
  | branch {link : Bool} (name : m.base.branch? = some link) :
      AwaitsNumber m .branchTarget [] fun field => .branch m.condition link (.offset field)
  | compare {f comma : Token} {first : Register} (name : m.base = .compare)
      (form : m.suffix = some .immediate) (register : f.register = .ok first)
      (separator : comma.kind = .comma) :
      AwaitsNumber m .compareImmediate [f, comma] fun value =>
        .instruction ⟨m.condition, .compare first (.immediate value)⟩
  | move {d comma : Token} {destination : Register} (name : m.base = .move ∨ m.base = .moveWide)
      (form : m.suffix = some .immediate) (register : d.register = .ok destination)
      (separator : comma.kind = .comma) :
      AwaitsNumber m .moveImmediate [d, comma] fun value =>
        .instruction ⟨m.condition, .moveWide .bottom destination value⟩
  | moveTop {d comma : Token} {destination : Register} (name : m.base = .moveTop)
      (form : m.suffix = none ∨ m.suffix = some .immediate)
      (register : d.register = .ok destination) (separator : comma.kind = .comma) :
      AwaitsNumber m .moveImmediate [d, comma] fun value =>
        .instruction ⟨m.condition, .moveWide .top destination value⟩
  | transfer {kind : TransferKind} {flags : List Token} {letters : List Char}
      {d comma b comma' : Token} {destination base : Register}
      (name : m.base.transfer? = some kind) (form : m.suffix = some .immediate)
      (indexing : FlagPhrase "PUW" flags letters) (register : d.register = .ok destination)
      (separator : comma.kind = .comma) (register' : b.register = .ok base)
      (separator' : comma'.kind = .comma) :
      AwaitsNumber m .transferOffset (flags ++ [d, comma, b, comma']) fun offset =>
        .instruction ⟨m.condition, .transfer kind
          ⟨letters.contains 'P', letters.contains 'U', letters.contains 'W'⟩ destination base
            (.immediate offset)⟩

/-- Behind the tokens `lead`, an instruction with the mnemonic `m` takes a constant, which makes it
the item. -/
inductive Mnemonic.AwaitsConstant (m : Mnemonic) : List Token → (RotatedByte → Item) → Prop where
  | arithmetic {operation : Arithmetic} {flags : List Token} {letters : List Char}
      {d comma f comma' : Token} {destination first : Register}
      (name : m.base.arithmetic? = some operation) (form : m.suffix = some .immediate)
      (setting : FlagPhrase "S" flags letters) (register : d.register = .ok destination)
      (separator : comma.kind = .comma) (register' : f.register = .ok first)
      (separator' : comma'.kind = .comma) :
      AwaitsConstant m (flags ++ [d, comma, f, comma']) fun constant =>
        .instruction ⟨m.condition, .arithmetic operation (letters.contains 'S') destination first
          (.immediate constant)⟩

namespace Reader

variable {m : Mnemonic} {head : Token} {lead : List Token}

theorem operands_of_branch {link : Bool} (h : m.base.branch? = some link) :
    operands head m = branch m link := by
  unfold operands
  cases hbase : m.base <;> rw [hbase] at h <;> cases h <;> rfl

theorem operands_of_transfer {kind : TransferKind} (h : m.base.transfer? = some kind) :
    operands head m = transfer head m kind := by
  unfold operands
  cases hbase : m.base <;> rw [hbase] at h <;> cases h <;> rfl

theorem operands_of_arithmetic {operation : Arithmetic}
    (h : m.base.arithmetic? = some operation) :
    operands head m = arithmetic head m operation := by
  unfold operands
  cases hbase : m.base <;> rw [hbase] at h <;> cases h <;> rfl

/-- A branch asks for the kind of its operand before it asks for the value. -/
theorem decidedBy_branch (link : Bool) :
    (branch m link).DecidedBy [] (·.field .branchTarget) fun field =>
      .branch m.condition link (.offset field) := by
  intro before t rest hnumeric
  have htoken : token .branchTarget ⟨before, t :: rest⟩ = .ok t ⟨t :: before, rest⟩ := rfl
  rw [List.nil_append, branch, bind_of_ok htoken, if_pos hnumeric]
  show (ofExcept (t.field .branchTarget) >>= _) _ = outcomeAt (t.field .branchTarget) _ _
  cases t.field .branchTarget <;> rfl

/-- **A number decides.** Behind operands that are in order, the number in the last place makes
the instruction, or its problem is that of the instruction. -/
theorem decidedBy_number {place : OperandPlace} {item : BitVec place.width → Item}
    (h : m.AwaitsNumber place lead item) :
    (operands head m).DecidedBy lead (·.field place) item := by
  -- by base name, from the first operand to the number behind them
  cases h with
  | branch name =>
      rw [operands_of_branch name]
      exact decidedBy_branch _
  | compare name form register separator =>
      have hread : operands head m = compare head m := by rw [operands, name]
      rw [hread]
      exact .behindRegister register
        (.behindComma separator ((DecidedBy.operand form (.field _)).map _))
  | move name form register separator =>
      have hread : operands head m = move head m := by
        rcases name with name | name <;> rw [operands, name]
      rw [hread, move, form]
      exact .behindRegister register (.behindComma separator ((DecidedBy.field _).map _))
  | moveTop name form register separator =>
      have hread : operands head m = moveTop head m := by rw [operands, name]
      rw [hread, moveTop, if_pos (by simpa using form)]
      exact .behindRegister register (.behindComma separator ((DecidedBy.field _).map _))
  | transfer name form indexing register separator register' separator' =>
      rw [operands_of_transfer name]
      have hform : some (m.suffix.getD .register) = some .immediate := by rw [form]; rfl
      exact .behindFlags indexing register (.behindRegister register (.behindComma separator
        (.behindRegister register' (.behindComma separator'
          ((DecidedBy.operand hform (.field _)).map _)))))

/-- A constant decides likewise. -/
theorem decidedBy_constant {item : RotatedByte → Item} (h : m.AwaitsConstant lead item) :
    (operands head m).DecidedBy lead Token.rotatedByte item := by
  cases h with
  | arithmetic name form setting register separator register' separator' =>
      rw [operands_of_arithmetic name]
      exact .behindFlags setting register (.behindRegister register (.behindComma separator
        (.behindRegister register' (.behindComma separator'
          ((DecidedBy.operand form (.of_number _)).map _)))))

/-- An operation whose operands are decided by a number is decided by it. -/
theorem DecidedBy.operation {α : Type} {convert : Token → Except Problem α} {item : α → Item}
    (h : (operands head m).DecidedBy lead convert item) (hword : head.kind = .word)
    (hname : Mnemonic.ofWord? head.lexeme = some m) (before rest : List Token) {t : Token}
    (hnumeric : t.kind.isNumeric = true) :
    Reader.operation ⟨before, head :: (lead ++ t :: rest)⟩ =
      outcomeAt (convert t) (fun a => ⟨item a, ⟨head.span.start, t.span.stop⟩⟩)
        ⟨t :: (lead.reverse ++ head :: before), rest⟩ := by
  have hnot {name : String} (hnone : Mnemonic.ofWord? name = none) :
      ¬head.isNamed name = true := fun hnamed => by
    rw [Token.ofWord?_eq_none_of_isNamed hnamed hnone] at hname
    cases hname
  have hafter : afterHead head = operands head m := by
    rw [afterHead, if_neg (hnot (by decide)), if_neg (hnot (by decide)), hname]
  rw [operation_of_word hword, hafter]
  exact bind_of_outcomeAt
    (g := fun i => (⟨i, ⟨head.span.start, t.span.stop⟩⟩ : Located Item))
    (h (head :: before) t rest hnumeric) fun _ => rfl

/-! ## Numbers in lists -/

/-- The items of a list so far, with a comma behind each. -/
inductive ListLead {α : Type} (convert : Token → Except Problem α) : List Token → Prop where
  | first : ListLead convert []
  | later {taken : List Token} {values : List α} {comma : Token}
      (earlier : ListPhrase convert taken values) (separator : comma.kind = .comma) :
      ListLead convert (taken ++ [comma])

section Lists

variable {α : Type} {convert : Token → Except Problem α} {taken : List Token} {values : List α}
  {comma t : Token} {problem : Problem} (expected : Expected)

theorem listRest_of_error (h : RestPhrase convert taken values) (hcomma : comma.kind = .comma)
    (hitem : convert t = .error problem) (found : List α) (before rest : List Token) :
    listRest expected convert found before (taken ++ comma :: t :: rest) =
      .error problem ⟨t :: comma :: (taken.reverse ++ before), rest⟩ := by
  induction h generalizing found before with
  | done =>
      rw [List.nil_append, listRest, if_pos hcomma, hitem]
      rfl
  | @more comma' u a taken values separator item _ ih =>
      have hstep : listRest expected convert found before
          (comma' :: u :: taken ++ comma :: t :: rest) =
            listRest expected convert (a :: found) (u :: comma' :: before)
              (taken ++ comma :: t :: rest) := by
        rw [List.cons_append, List.cons_append, listRest, if_pos separator, item]
      rw [hstep, ih, List.reverse_cons, List.reverse_cons]
      simp

/-- **The first item that has no value** is the problem of its list, whatever comes behind it. -/
theorem list_of_error (h : ListLead convert lead) (hitem : convert t = .error problem)
    (before rest : List Token) :
    list expected convert ⟨before, lead ++ t :: rest⟩ =
      .error problem ⟨t :: (lead.reverse ++ before), rest⟩ := by
  cases h with
  | first =>
      have htoken : token expected ⟨before, t :: rest⟩ = .ok t ⟨t :: before, rest⟩ := rfl
      rw [List.nil_append, list, bind_of_ok htoken, hitem]
      exact bind_of_error rfl
  | @later _ _ comma earlier separator =>
      cases earlier with
      | @intro u a taken values item hrest =>
          have htoken : token expected ⟨before, u :: (taken ++ comma :: t :: rest)⟩ =
              .ok u ⟨u :: before, taken ++ comma :: t :: rest⟩ := rfl
          rw [List.append_assoc, List.singleton_append, List.cons_append, list,
            bind_of_ok htoken, item]
          have hitems := listRest_of_error expected hrest separator hitem [a] (u :: before) rest
          refine (bind_of_ok rfl).trans (hitems.trans ?_)
          simp

end Lists

section Words

variable {equals t : Token} {taken numbers : List Token} {problem : Problem}

/-- The numbers of a list that all fit are words with these values. -/
theorem exists_words (h : ListPhrase Token.numeric taken numbers)
    (hfit : ∀ n ∈ taken, n.kind.isNumeric = true → n.value < 2 ^ 32) :
    ∃ contents, ListPhrase Token.dataWord taken contents ∧
      contents.map BitVec.toNat = numbers.map Token.value := by
  have hwords : ∃ contents, ListPhrase Token.dataWord taken contents ∧
      List.Forall₂ (fun n word => word.toNat = n.value) numbers contents := by
    refine h.related (R := fun t u => u = t ∧ (t.kind.isNumeric = true → t.value < 2 ^ 32))
      (List.forall₂_same.mpr fun t ht => ⟨rfl, hfit t ht⟩) (by rintro t _ ⟨rfl, -⟩; exact id) ?_
    rintro t _ n ⟨rfl, hlt⟩ hn
    obtain ⟨hnumeric, rfl⟩ := Token.numeric_eq_ok_iff.mp hn
    obtain ⟨bits, hbits, hfield⟩ := (n.field_eq_of_value .dataWord).1 (hlt hnumeric)
    have hword : n.numberIn .dataWord = .ok bits := by
      rw [Token.numberIn_of_numeric hnumeric, hfield]
    exact ⟨bits, hword, hbits⟩
  obtain ⟨contents, hcontents, hvalues⟩ := hwords
  refine ⟨contents, hcontents, ?_⟩
  rw [← List.forall₂_eq_eq_eq, List.forall₂_map_left_iff, List.forall₂_map_right_iff]
  exact hvalues.flip

theorem afterHead_of_word (hname : head.isNamed "word" = true) : afterHead head = words := by
  have hbyte : head.isNamed "byte" = false := Token.isNamed_eq_false hname (by decide)
  rw [afterHead, if_neg (by simp [hbyte]), if_pos hname]

/-- A `word` directive is read if all of its numbers fit. -/
theorem operation_of_words (hname : head.isNamed "word" = true) (hmark : equals.kind = .equals)
    (hlist : ListPhrase Token.numeric taken numbers)
    (hfit : ∀ n ∈ taken, n.kind.isNumeric = true → n.value < 2 ^ 32) {rest : List Token}
    (hnext : (Cursor.mk [] rest).nextIs .comma = false) (before : List Token) :
    ∃ contents : List (BitVec 32), contents.map BitVec.toNat = numbers.map Token.value ∧
      operation ⟨before, head :: equals :: (taken ++ rest)⟩ =
        .ok ⟨.data (.words contents), spanOver head (equals :: taken)⟩
          ⟨taken.reverse ++ equals :: head :: before, rest⟩ := by
  obtain ⟨contents, hcontents, hvalues⟩ := exists_words hlist hfit
  have htakes : (Cursor.mk before (head :: equals :: (taken ++ rest))).Takes
      (head :: equals :: taken) ⟨taken.reverse ++ equals :: head :: before, rest⟩ :=
    ⟨rfl, by simp⟩
  refine ⟨contents, hvalues, operation_eq_ok_iff.mpr ⟨head, equals :: taken, ?_, ?_,
    .words hname hmark hcontents, ?_, fun _ => hnext⟩⟩
  · exact htakes
  · exact Grammar.kind_of_isNamed hname
  · rw [htakes.lastStop]
    rfl

/-- The first number of a `word` directive that does not fit is its problem. -/
theorem operation_of_words_error (hname : head.isNamed "word" = true)
    (hmark : equals.kind = .equals) (hlead : ListLead Token.dataWord lead)
    (hitem : t.dataWord = .error problem) (before rest : List Token) :
    operation ⟨before, head :: equals :: (lead ++ t :: rest)⟩ =
      .error problem ⟨t :: (lead.reverse ++ equals :: head :: before), rest⟩ := by
  have hequals : kind .equals .equals ⟨head :: before, equals :: (lead ++ t :: rest)⟩ =
      .ok equals ⟨equals :: head :: before, lead ++ t :: rest⟩ :=
    kind_eq_ok_iff.mpr ⟨Cursor.takes_singleton.mpr ⟨_, rfl, rfl⟩, hmark⟩
  have hlist := list_of_error .number hlead hitem (equals :: head :: before) rest
  rw [operation_of_word (Grammar.kind_of_isNamed hname), afterHead_of_word hname]
  refine bind_of_error ?_
  rw [words, bind_of_ok hequals]
  exact bind_of_error hlist

end Words

end Reader

end ArmAssembly
