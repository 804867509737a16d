import ArmAssembly.Proofs.Operands
import ArmAssembly.Statement.Progress

set_option autoImplicit false

/-! # Phrases

What a reader makes of the tokens in front of it is said here by relations between lists of
tokens and values, with no cursor and no order of reading: `Operation head taken item` says
that the word `head` and the tokens `taken` after it ask for `item`. A reader succeeds just on
the phrases of its relation (`Reader.operation_eq_ok_iff`). Only lists without a closing mark
look one token further: no comma may follow them.
-/

namespace ArmAssembly

/-! ## Taking tokens

A reader that succeeds has taken tokens from the front of those that were left, and put them behind
the cursor. Which ones it has taken is all that has to be known of two places, and taking one list
and then another is taking the two lists joined. -/

namespace Cursor

/-- Reading `taken` leads from one place to the other. -/
def Takes (c : Cursor) (taken : List Token) (d : Cursor) : Prop :=
  c.after = taken ++ d.after ∧ d.before = taken.reverse ++ c.before

theorem takes_nil {c d : Cursor} : c.Takes [] d ↔ c = d := by
  constructor
  · rintro ⟨hafter, hbefore⟩
    cases c
    cases d
    simp_all
  · rintro rfl
    exact ⟨rfl, rfl⟩

theorem takes_append {c e : Cursor} {u v : List Token} :
    c.Takes (u ++ v) e ↔ ∃ d, c.Takes u d ∧ d.Takes v e := by
  constructor
  · rintro ⟨hafter, hbefore⟩
    exact ⟨⟨u.reverse ++ c.before, v ++ e.after⟩, ⟨by simp [hafter], rfl⟩, rfl,
      by simp [hbefore]⟩
  · rintro ⟨d, ⟨hafter, hbefore⟩, hafter', hbefore'⟩
    exact ⟨by simp [hafter, hafter'], by simp [hbefore, hbefore']⟩

theorem takes_cons {c e : Cursor} {t : Token} {v : List Token} :
    c.Takes (t :: v) e ↔ ∃ d, c.Takes [t] d ∧ d.Takes v e :=
  takes_append (u := [t])

theorem takes_singleton {before after : List Token} {t : Token} {d : Cursor} :
    (Cursor.mk before after).Takes [t] d ↔ ∃ rest, after = t :: rest ∧ d = ⟨t :: before, rest⟩ := by
  cases d
  simp [Takes]

theorem Takes.trans {c d e : Cursor} {u v : List Token} (first : c.Takes u d)
    (second : d.Takes v e) : c.Takes (u ++ v) e := takes_append.mpr ⟨d, first, second⟩

theorem Takes.cons {c d e : Cursor} {t : Token} {v : List Token} (first : c.Takes [t] d)
    (second : d.Takes v e) : c.Takes (t :: v) e := takes_cons.mpr ⟨d, first, second⟩

theorem takes_three {c f : Cursor} {s t u : Token} :
    c.Takes [s, t, u] f ↔ ∃ d e, c.Takes [s] d ∧ d.Takes [t] e ∧ e.Takes [u] f := by
  simp only [takes_cons (v := [t, u]), takes_cons (v := [u]), exists_and_left]

theorem takes_five {c h : Cursor} {s t u v w : Token} :
    c.Takes [s, t, u, v, w] h ↔
      ∃ d e f g, c.Takes [s] d ∧ d.Takes [t] e ∧ e.Takes [u] f ∧ f.Takes [v] g ∧ g.Takes [w] h := by
  simp only [takes_cons (v := [t, u, v, w]), takes_cons (v := [u, v, w]), takes_three,
    exists_and_left]

theorem Takes.length_eq {c d : Cursor} {taken : List Token} (h : c.Takes taken d) :
    c.after.length = taken.length + d.after.length := by
  rw [h.1, List.length_append]

theorem Takes.nextIs {c d : Cursor} {t : Token} (h : c.Takes [t] d) (kind : TokenKind) :
    c.nextIs kind = decide (t.kind = kind) := by
  obtain ⟨hafter, -⟩ := h
  simp [Cursor.nextIs, hafter]

end Cursor

/-! ## Parts of phrases

What the operands of several instructions have in common: lists, flags, and the last operand, whose
form the suffix selects. A part says nothing about the tokens that follow it. -/

/-- Tokens that each follow a comma and stand for a value. -/
inductive RestPhrase {α : Type} (convert : Token → Except Problem α) :
    List Token → List α → Prop where
  | done : RestPhrase convert [] []
  | more {comma t : Token} {a : α} {taken : List Token} {values : List α}
      (separator : comma.kind = .comma) (item : convert t = .ok a)
      (rest : RestPhrase convert taken values) :
      RestPhrase convert (comma :: t :: taken) (a :: values)

/-- One or more tokens with commas between them, each of which stands for a value. -/
inductive ListPhrase {α : Type} (convert : Token → Except Problem α) :
    List Token → List α → Prop where
  | intro {t : Token} {a : α} {taken : List Token} {values : List α} (item : convert t = .ok a)
      (rest : RestPhrase convert taken values) : ListPhrase convert (t :: taken) (a :: values)

/-- No flags, or a dash and a word with no other letters than those accepted. -/
inductive FlagPhrase (accepted : String) : List Token → List Char → Prop where
  | absent : FlagPhrase accepted [] []
  | present {dash letters : Token} (mark : dash.kind = .dash) (word : letters.kind = .word)
      (known : ∀ c ∈ folded letters.lexeme, c ∈ accepted.toList) :
      FlagPhrase accepted [dash, letters] (folded letters.lexeme)

/-- The token in the last place of an instruction, whose form the suffix selects. -/
inductive LastPhrase {α : Type} (suffix : Option Suffix) (convert : Token → Except Problem α)
    (t : Token) : Operand α → Prop where
  | immediate {a : α} (form : suffix = some .immediate) (number : convert t = .ok a) :
      LastPhrase suffix convert t (.immediate a)
  | register {r : Register} (form : suffix = some .register) (source : t.register = .ok r) :
      LastPhrase suffix convert t (.register r)

/-! ## Phrases

One relation for each reader. A constructor names the tokens in the order in which they are written,
and the item that they ask for together. -/

/-- The operand of a branch. -/
inductive BranchPhrase (m : Mnemonic) (link : Bool) : List Token → Item → Prop where
  | offset {t : Token} {field : BitVec 24} (hnumber : t.numberIn .branchTarget = .ok field) :
      BranchPhrase m link [t] (.branch m.condition link (.offset field))
  | label {t : Token} (hword : t.kind = .word) :
      BranchPhrase m link [t] (.branch m.condition link (.label ⟨t.lexeme, t.span⟩))

/-- The operands of an arithmetic instruction. -/
inductive ArithmeticPhrase (m : Mnemonic) (operation : Arithmetic) :
    List Token → Item → Prop where
  | intro {flags : List Token} {letters : List Char} {d comma f comma' s : Token}
      {destination first : Register} {second : Operand RotatedByte}
      (hsetting : FlagPhrase "S" flags letters)
      (hdestination : d.register = .ok destination) (hseparator : comma.kind = .comma)
      (hfirst : f.register = .ok first) (hseparator' : comma'.kind = .comma)
      (hsecond : LastPhrase m.suffix Token.constant s second) :
      ArithmeticPhrase m operation (flags ++ [d, comma, f, comma', s])
        (.instruction
          ⟨m.condition, .arithmetic operation (letters.contains 'S') destination first second⟩)

/-- The operands of a comparison. -/
inductive ComparePhrase (m : Mnemonic) : List Token → Item → Prop where
  | intro {f comma s : Token} {first : Register} {second : Operand (BitVec 12)}
      (hfirst : f.register = .ok first) (hseparator : comma.kind = .comma)
      (hsecond : LastPhrase m.suffix (Token.numberIn .compareImmediate) s second) :
      ComparePhrase m [f, comma, s] (.instruction ⟨m.condition, .compare first second⟩)

/-- The operands of a move. -/
inductive MovePhrase (m : Mnemonic) : List Token → Item → Prop where
  | immediate {d comma s : Token} {destination : Register} {value : BitVec 16}
      (hform : m.suffix = some .immediate) (hdestination : d.register = .ok destination)
      (hseparator : comma.kind = .comma) (hnumber : s.numberIn .moveImmediate = .ok value) :
      MovePhrase m [d, comma, s]
        (.instruction ⟨m.condition, .moveWide .bottom destination value⟩)
  | register {d comma s : Token} {destination source : Register}
      (hform : m.suffix = some .register) (hdestination : d.register = .ok destination)
      (hseparator : comma.kind = .comma) (hsource : s.register = .ok source) :
      MovePhrase m [d, comma, s]
        (.instruction ⟨m.condition, .moveRegister destination source⟩)
  | label {d comma s : Token} {destination : Register} (hform : m.suffix = some .label)
      (hdestination : d.register = .ok destination) (hseparator : comma.kind = .comma)
      (hword : s.kind = .word) :
      MovePhrase m [d, comma, s] (.loadLabel m.condition destination ⟨s.lexeme, s.span⟩)

/-- The operands of a move to the top half of a register. -/
inductive MoveTopPhrase (m : Mnemonic) : List Token → Item → Prop where
  | intro {d comma s : Token} {destination : Register} {value : BitVec 16}
      (hform : m.suffix = none ∨ m.suffix = some .immediate)
      (hdestination : d.register = .ok destination) (hseparator : comma.kind = .comma)
      (hnumber : s.numberIn .moveImmediate = .ok value) :
      MoveTopPhrase m [d, comma, s]
        (.instruction ⟨m.condition, .moveWide .top destination value⟩)

/-- The operands of a transfer; without a suffix the offset is a register. -/
inductive TransferPhrase (m : Mnemonic) (kind : TransferKind) : List Token → Item → Prop where
  | intro {flags : List Token} {letters : List Char} {d comma b comma' s : Token}
      {destination base : Register} {offset : Operand (BitVec 12)}
      (hindexing : FlagPhrase "PUW" flags letters)
      (hdestination : d.register = .ok destination) (hseparator : comma.kind = .comma)
      (hbase : b.register = .ok base) (hseparator' : comma'.kind = .comma)
      (hoffset : LastPhrase (some (m.suffix.getD .register))
        (Token.numberIn .transferOffset) s offset) :
      TransferPhrase m kind (flags ++ [d, comma, b, comma', s])
        (.instruction
          ⟨m.condition, .transfer kind
            ⟨letters.contains 'P', letters.contains 'U', letters.contains 'W'⟩
            destination base offset⟩)

/-- The registers of a stack instruction. -/
inductive StackPhrase (m : Mnemonic) (kind : StackKind) : List Token → Item → Prop where
  | intro {opening closing : Token} {taken : List Token} {registers : List Register}
      (hform : m.suffix = none) (hopening : opening.kind = .openBracket)
      (hlist : ListPhrase Token.register taken registers)
      (hclosing : closing.kind = .closeBracket) :
      StackPhrase m kind (opening :: (taken ++ [closing]))
        (.instruction ⟨m.condition, .stack kind registers⟩)

/-- The tokens are operands of `m`, and the instruction is the item. -/
def OperandsPhrase (m : Mnemonic) : List Token → Item → Prop :=
  match m.base with
  | .branch => BranchPhrase m false
  | .branchLink => BranchPhrase m true
  | .and => ArithmeticPhrase m .and
  | .orr => ArithmeticPhrase m .orr
  | .add => ArithmeticPhrase m .add
  | .sub => ArithmeticPhrase m .sub
  | .compare => ComparePhrase m
  | .move => MovePhrase m
  | .moveWide => MovePhrase m
  | .moveTop => MoveTopPhrase m
  | .load => TransferPhrase m .load
  | .loadByte => TransferPhrase m .loadByte
  | .store => TransferPhrase m .store
  | .push => StackPhrase m .push
  | .pop => StackPhrase m .pop

/-- What follows the word `head`, which names a directive or an instruction. -/
inductive OperationPhrase (head : Token) : List Token → Item → Prop where
  | bytes {equals : Token} {taken literals : List Token} {contents : List UInt8}
      (name : head.isNamed "byte" = true) (mark : equals.kind = .equals)
      (list : ListPhrase Token.hexLiteral taken literals)
      (pairs : bytesOfDigits? (literals.flatMap Token.digits) = some contents) :
      OperationPhrase head (equals :: taken) (.data (.bytes contents))
  | words {equals : Token} {taken : List Token} {contents : List (BitVec 32)}
      (name : head.isNamed "word" = true) (mark : equals.kind = .equals)
      (list : ListPhrase Token.dataWord taken contents) :
      OperationPhrase head (equals :: taken) (.data (.words contents))
  | instruction {m : Mnemonic} {taken : List Token} {item : Item}
      (name : Mnemonic.ofWord? head.lexeme = some m) (operands : OperandsPhrase m taken item) :
      OperationPhrase head taken item

namespace Reader

open Cursor

/-! ## Readers that succeed

Each reader is told by the tokens that it takes and by what it makes of them. Readers that convert a
single token have one form (`Converts`), which further conversions of its value keep. -/

theorem bind_eq_ok_iff {α β : Type} {r : Reader α} {k : α → Reader β} {c e : Cursor} {b : β} :
    (r >>= k) c = .ok b e ↔ ∃ a d, r c = .ok a d ∧ k a d = .ok b e := by
  show EStateM.bind r k c = _ ↔ _
  unfold EStateM.bind
  cases h : r c with
  | ok a d =>
      constructor
      · intro hk
        exact ⟨a, d, rfl, hk⟩
      · rintro ⟨a', d', hr, hk⟩
        cases hr
        exact hk
  | error problem d => simp

theorem bind_of_ok {α β : Type} {r : Reader α} {k : α → Reader β} {c d : Cursor} {a : α}
    (h : r c = .ok a d) : (r >>= k) c = k a d := by
  show EStateM.bind r k c = _
  simp only [EStateM.bind, h]

theorem bind_of_error {α β : Type} {r : Reader α} {k : α → Reader β} {c d : Cursor}
    {problem : Problem} (h : r c = .error problem d) : (r >>= k) c = .error problem d := by
  show EStateM.bind r k c = _
  simp only [EStateM.bind, h]

theorem pure_eq_ok_iff {α : Type} {a b : α} {c d : Cursor} :
    (pure a : Reader α) c = .ok b d ↔ a = b ∧ c = d := by
  show EStateM.Result.ok a c = .ok b d ↔ _
  simp

theorem fail_eq_ok_iff {α : Type} {problem : Problem} {a : α} {c d : Cursor} :
    (fail problem : Reader α) c = .ok a d ↔ False := by
  simp [fail]

theorem ofExcept_eq_ok_iff {α : Type} {result : Except Problem α} {a : α} {c d : Cursor} :
    ofExcept result c = .ok a d ↔ result = .ok a ∧ c = d := by
  cases result with
  | ok b =>
      rw [Except.ok.injEq]
      exact pure_eq_ok_iff
  | error problem => simp [ofExcept, fail]

theorem token_eq_ok_iff {expected : Expected} {t : Token} {c d : Cursor} :
    token expected c = .ok t d ↔ c.Takes [t] d := by
  obtain ⟨before, after⟩ := c
  rw [takes_singleton]
  cases after with
  | nil => simp [token]
  | cons u rest =>
      simp only [token, EStateM.Result.ok.injEq, List.cons.injEq]
      constructor
      · rintro ⟨rfl, rfl⟩
        exact ⟨rest, ⟨rfl, rfl⟩, rfl⟩
      · rintro ⟨rest', ⟨rfl, rfl⟩, rfl⟩
        exact ⟨rfl, rfl⟩

theorem kind_eq_ok_iff {k : TokenKind} {expected : Expected} {t : Token} {c d : Cursor} :
    kind k expected c = .ok t d ↔ c.Takes [t] d ∧ t.kind = k := by
  unfold kind
  rw [bind_eq_ok_iff]
  constructor
  · rintro ⟨u, e, hu, h⟩
    by_cases hk : u.kind = k
    · rw [if_pos hk, pure_eq_ok_iff] at h
      obtain ⟨rfl, rfl⟩ := h
      exact ⟨token_eq_ok_iff.mp hu, hk⟩
    · rw [if_neg hk, fail_eq_ok_iff] at h
      exact h.elim
  · rintro ⟨ht, hk⟩
    exact ⟨t, d, token_eq_ok_iff.mpr ht, by rw [if_pos hk, pure_eq_ok_iff]; exact ⟨rfl, rfl⟩⟩

theorem comma_eq_ok_iff {u : Unit} {c d : Cursor} :
    comma c = .ok u d ↔ ∃ t, c.Takes [t] d ∧ t.kind = .comma := by
  simp only [comma, bind_eq_ok_iff, kind_eq_ok_iff, pure_eq_ok_iff, true_and]
  constructor
  · rintro ⟨t, e, ht, rfl⟩
    exact ⟨t, ht⟩
  · rintro ⟨t, ht⟩
    exact ⟨t, d, ht, rfl⟩

/-- The reader takes one token and makes `convert` of it. -/
def Converts {α : Type} (r : Reader α) (convert : Token → Except Problem α) : Prop :=
  ∀ (c d : Cursor) (a : α), r c = .ok a d ↔ ∃ t, c.Takes [t] d ∧ convert t = .ok a

theorem Converts.iff {α : Type} {r : Reader α} {convert : Token → Except Problem α}
    (hr : Converts r convert) {c d : Cursor} {a : α} :
    r c = .ok a d ↔ ∃ t, c.Takes [t] d ∧ convert t = .ok a := hr c d a

theorem converts_token {α : Type} (expected : Expected) (convert : Token → Except Problem α) :
    Converts (do ofExcept (convert (← token expected))) convert := by
  intro c d a
  simp only [bind_eq_ok_iff, token_eq_ok_iff, ofExcept_eq_ok_iff]
  constructor
  · rintro ⟨t, e, ht, hconvert, rfl⟩
    exact ⟨t, ht, hconvert⟩
  · rintro ⟨t, ht, hconvert⟩
    exact ⟨t, d, ht, hconvert, rfl⟩

theorem Converts.bind {α β : Type} {r : Reader α} {first : Token → Except Problem α}
    (hr : Converts r first) (second : α → Except Problem β) :
    Converts (do ofExcept (second (← r))) (fun t => (first t).bind second) := by
  intro c d b
  simp only [bind_eq_ok_iff, hr.iff, ofExcept_eq_ok_iff]
  constructor
  · rintro ⟨a, e, ⟨t, ht, hfirst⟩, hsecond, rfl⟩
    exact ⟨t, ht, by rw [hfirst]; exact hsecond⟩
  · rintro ⟨t, ht, h⟩
    cases hfirst : first t with
    | ok a =>
        -- the second conversion is made of what the first has found
        rw [hfirst] at h
        exact ⟨a, d, ⟨t, ht, hfirst⟩, h, rfl⟩
    | error problem =>
        rw [hfirst] at h
        cases h

theorem converts_register : Converts register Token.register :=
  converts_token .register Token.register

theorem converts_number : Converts number Token.numeric :=
  converts_token .number Token.numeric

theorem converts_field (place : OperandPlace) : Converts (field place) (Token.numberIn place) :=
  converts_number.bind (·.field place)

theorem converts_constant :
    Converts (do ofExcept (← number).rotatedByte) Token.constant :=
  converts_number.bind (·.rotatedByte)

theorem label_eq_ok_iff {name : Located String} {c d : Cursor} :
    label c = .ok name d ↔ ∃ t, c.Takes [t] d ∧ t.kind = .word ∧ name = ⟨t.lexeme, t.span⟩ := by
  simp only [label, bind_eq_ok_iff, kind_eq_ok_iff, pure_eq_ok_iff]
  constructor
  · rintro ⟨t, e, ⟨ht, hword⟩, rfl, rfl⟩
    exact ⟨t, ht, hword, rfl⟩
  · rintro ⟨t, ht, hword, rfl⟩
    exact ⟨t, d, ⟨ht, hword⟩, rfl, rfl⟩

/-! ### Groups of tokens

How many tokens a group has is decided by the token behind it: flags are there if a dash comes next,
and a list goes on as long as a comma does. So these lemmas speak of the next token, too. -/

theorem get_eq_ok_iff {c d e : Cursor} : (get : Reader Cursor) c = .ok d e ↔ c = d ∧ c = e := by
  show EStateM.Result.ok c c = .ok d e ↔ _
  simp

/-- The reader asks for flags only where a dash comes next. -/
theorem flags_eq_ok_iff {base : BaseName} {accepted : String} {letters : List Char}
    {c d : Cursor} :
    flags base accepted c = .ok letters d ↔
      ∃ taken, c.Takes taken d ∧ FlagPhrase accepted taken letters ∧
        (taken = [] → c.nextIs .dash = false) := by
  unfold flags
  rw [bind_eq_ok_iff]
  simp only [get_eq_ok_iff]
  constructor
  · rintro ⟨_, _, ⟨rfl, rfl⟩, h⟩
    by_cases hdash : c.nextIs .dash
    · -- a dash and a word were read, in which no letter was found that is not accepted
      rw [if_pos hdash] at h
      simp only [bind_eq_ok_iff, token_eq_ok_iff, kind_eq_ok_iff] at h
      obtain ⟨dash, e, hd, word, f, ⟨hw, hkind⟩, h⟩ := h
      rw [hd.nextIs, decide_eq_true_eq] at hdash
      cases hfind : (folded word.lexeme).find? (!accepted.toList.contains ·) with
      | some flag =>
          rw [hfind] at h
          exact (fail_eq_ok_iff.mp h).elim
      | none =>
          rw [hfind] at h
          obtain ⟨rfl, rfl⟩ := pure_eq_ok_iff.mp h
          refine ⟨[dash, word], hd.cons hw, .present hdash hkind ?_, by simp⟩
          intro letter hletter
          simpa using List.find?_eq_none.mp hfind letter hletter
    · rw [if_neg hdash, pure_eq_ok_iff] at h
      obtain ⟨rfl, rfl⟩ := h
      exact ⟨[], takes_nil.mpr rfl, .absent, fun _ => by simpa using hdash⟩
  · rintro ⟨taken, htakes, hphrase, hnext⟩
    refine ⟨c, c, ⟨rfl, rfl⟩, ?_⟩
    cases hphrase with
    | absent =>
        rw [if_neg (by simp [hnext rfl]), pure_eq_ok_iff]
        exact ⟨rfl, takes_nil.mp htakes⟩
    | @present dash word hdash hkind hknown =>
        obtain ⟨e, hd, hw⟩ := takes_cons.mp htakes
        have hfind : (folded word.lexeme).find? (!accepted.toList.contains ·) = none := by
          rw [List.find?_eq_none]
          intro letter hletter
          simpa using hknown letter hletter
        rw [if_pos (by rw [hd.nextIs, decide_eq_true_eq]; exact hdash)]
        simp only [bind_eq_ok_iff, token_eq_ok_iff, kind_eq_ok_iff]
        refine ⟨dash, e, hd, word, d, ⟨hw, hkind⟩, ?_⟩
        rw [hfind]
        exact pure_eq_ok_iff.mpr ⟨rfl, rfl⟩

section Rest

variable {α : Type} {convert : Token → Except Problem α} {values : List α} {c d : Cursor}
  {before after : List Token}

/-- The tokens between the two places are the rest of a list, which ends there. -/
def TakesRest (convert : Token → Except Problem α) (c : Cursor) (values : List α)
    (d : Cursor) : Prop :=
  ∃ taken, c.Takes taken d ∧ RestPhrase convert taken values ∧ d.nextIs .comma = false

/-- Where no comma comes next, a list has ended. -/
theorem takesRest_of_not_comma (hnext : c.nextIs .comma = false) :
    TakesRest convert c values d ↔ values = [] ∧ c = d := by
  constructor
  · rintro ⟨taken, htakes, hrest, -⟩
    cases hrest with
    | done => exact ⟨rfl, takes_nil.mp htakes⟩
    | more separator item rest =>
        obtain ⟨e, hcomma, -⟩ := takes_cons.mp htakes
        have hcontra := hcomma.nextIs .comma
        rw [hnext, separator] at hcontra
        cases hcontra
  · rintro ⟨rfl, rfl⟩
    exact ⟨[], takes_nil.mpr rfl, .done, hnext⟩

/-- Behind a comma an item has to stand, and then the list goes on. -/
theorem takesRest_of_comma {t : Token} (hcomma : t.kind = .comma) :
    TakesRest convert ⟨before, t :: after⟩ values d ↔
      ∃ item rest a more, after = item :: rest ∧ convert item = .ok a ∧ values = a :: more ∧
        TakesRest convert ⟨item :: t :: before, rest⟩ more d := by
  constructor
  · rintro ⟨taken, htakes, hrest, hnext⟩
    cases hrest with
    | done =>
        -- the list would end in front of a comma
        rw [← takes_nil.mp htakes] at hnext
        simp [Cursor.nextIs, hcomma] at hnext
    | more separator hitem hrest =>
        obtain ⟨e, hcomma', htakes⟩ := takes_cons.mp htakes
        obtain ⟨f, hitem', htakes⟩ := takes_cons.mp htakes
        obtain ⟨_, heq, rfl⟩ := takes_singleton.mp hcomma'
        cases heq
        obtain ⟨rest, rfl, rfl⟩ := takes_singleton.mp hitem'
        exact ⟨_, rest, _, _, rfl, hitem, rfl, _, htakes, hrest, hnext⟩
  · rintro ⟨item, rest, a, more, rfl, hitem, rfl, taken, htakes, hrest, hnext⟩
    refine ⟨t :: item :: taken, ?_, .more hcomma hitem hrest, hnext⟩
    exact .cons (takes_singleton.mpr ⟨_, rfl, rfl⟩)
      (.cons (takes_singleton.mpr ⟨_, rfl, rfl⟩) htakes)

/-- The reader of a list goes on as long as a comma follows. -/
theorem listRest_eq_ok_iff {expected : Expected} {found : List α} :
    listRest expected convert found before after = .ok values d ↔
      ∃ more, TakesRest convert ⟨before, after⟩ more d ∧ values = found.reverse ++ more := by
  have stops {found : List α} {before after : List Token}
      (hnext : (Cursor.mk before after).nextIs .comma = false) :
      EStateM.Result.ok found.reverse (Cursor.mk before after) =
        (.ok values d : EStateM.Result Problem Cursor (List α)) ↔
      ∃ more, TakesRest convert ⟨before, after⟩ more d ∧ values = found.reverse ++ more := by
    simp only [takesRest_of_not_comma hnext, EStateM.Result.ok.injEq]
    constructor
    · rintro ⟨rfl, rfl⟩
      exact ⟨[], ⟨rfl, rfl⟩, by simp⟩
    · rintro ⟨_, ⟨rfl, rfl⟩, rfl⟩
      exact ⟨by simp, rfl⟩
  -- the cases of the reader: it stops in front of anything but a comma, and behind a comma it
  -- fails unless an item stands there
  fun_induction listRest expected convert found before after with
  | case1 found before => exact stops rfl
  | case2 found before t hcomma => simp [takesRest_of_comma hcomma]
  | case3 found before t hcomma => exact stops (by simp [Cursor.nextIs, hcomma])
  | case4 found before t item rest hcomma a hitem ih =>
      simp only [takesRest_of_comma hcomma]
      refine ih.trans ⟨?_, ?_⟩
      · rintro ⟨more, hrest, rfl⟩
        exact ⟨a :: more, ⟨item, rest, a, more, rfl, hitem, rfl, hrest⟩, by simp⟩
      · rintro ⟨_, ⟨_, _, b, more, heq, hitem', rfl, hrest⟩, rfl⟩
        cases heq
        rw [hitem] at hitem'
        cases hitem'
        exact ⟨more, hrest, by simp⟩
  | case5 found before t item rest hcomma problem hitem =>
      constructor
      · intro h
        cases h
      · rintro ⟨_, hrest, -⟩
        obtain ⟨_, _, a, _, heq, hitem', -⟩ := (takesRest_of_comma hcomma).mp hrest
        cases heq
        rw [hitem] at hitem'
        cases hitem'
  | case6 found before t item rest hcomma =>
      exact stops (by simp [Cursor.nextIs, hcomma])

end Rest

theorem list_eq_ok_iff {α : Type} {expected : Expected} {convert : Token → Except Problem α}
    {values : List α} {c d : Cursor} :
    list expected convert c = .ok values d ↔
      ∃ taken, c.Takes taken d ∧ ListPhrase convert taken values ∧ d.nextIs .comma = false := by
  unfold list
  constructor
  · intro h
    obtain ⟨t, e, ht, h⟩ := bind_eq_ok_iff.mp h
    obtain ⟨a, f, ha, h⟩ := bind_eq_ok_iff.mp h
    obtain ⟨hitem, rfl⟩ := ofExcept_eq_ok_iff.mp ha
    obtain ⟨more, ⟨taken, htakes, hrest, hnext⟩, rfl⟩ := listRest_eq_ok_iff.mp h
    exact ⟨t :: taken, (token_eq_ok_iff.mp ht).cons htakes, .intro hitem hrest, hnext⟩
  · rintro ⟨_, htakes, hphrase, hnext⟩
    cases hphrase with
    | @intro t a taken values hitem hrest =>
        -- the first item is read by itself, and then the rest as long as commas follow
        obtain ⟨e, ht, htakes⟩ := takes_cons.mp htakes
        refine bind_eq_ok_iff.mpr ⟨t, e, token_eq_ok_iff.mpr ht, ?_⟩
        refine bind_eq_ok_iff.mpr ⟨a, e, ofExcept_eq_ok_iff.mpr ⟨hitem, rfl⟩, ?_⟩
        exact listRest_eq_ok_iff.mpr ⟨values, ⟨taken, htakes, hrest, hnext⟩, rfl⟩

theorem operand_eq_ok_iff {α : Type} {head : Token} {suffix : Option Suffix}
    {number : Reader α} {convert : Token → Except Problem α} (hnumber : Converts number convert)
    {value : Operand α} {c d : Cursor} :
    operand head suffix number c = .ok value d ↔
      ∃ t, c.Takes [t] d ∧ LastPhrase suffix convert t value := by
  unfold operand
  constructor
  · intro h
    split at h
    · simp only [bind_eq_ok_iff, hnumber.iff, pure_eq_ok_iff] at h
      obtain ⟨a, e, ⟨t, ht, hconvert⟩, rfl, rfl⟩ := h
      exact ⟨t, ht, .immediate rfl hconvert⟩
    · simp only [bind_eq_ok_iff, converts_register.iff, pure_eq_ok_iff] at h
      obtain ⟨r, e, ⟨t, ht, hregister⟩, rfl, rfl⟩ := h
      exact ⟨t, ht, .register rfl hregister⟩
    · exact (fail_eq_ok_iff.mp h).elim
  · rintro ⟨t, ht, hphrase⟩
    cases hphrase with
    | immediate form hconvert =>
        subst form
        simp only [bind_eq_ok_iff, hnumber.iff, pure_eq_ok_iff]
        exact ⟨_, d, ⟨t, ht, hconvert⟩, rfl, rfl⟩
    | register form hregister =>
        subst form
        simp only [bind_eq_ok_iff, converts_register.iff, pure_eq_ok_iff]
        exact ⟨_, d, ⟨t, ht, hregister⟩, rfl, rfl⟩

/-! ### Operands -/

theorem branch_eq_ok_iff {m : Mnemonic} {link : Bool} {item : Item} {c d : Cursor} :
    branch m link c = .ok item d ↔ ∃ taken, c.Takes taken d ∧ BranchPhrase m link taken item := by
  unfold branch
  rw [bind_eq_ok_iff]
  simp only [token_eq_ok_iff]
  constructor
  -- a number is looked for before a word
  · rintro ⟨t, e, ht, h⟩
    refine ⟨[t], ?_⟩
    by_cases hnumeric : t.kind.isNumeric
    · rw [if_pos hnumeric] at h
      simp only [bind_eq_ok_iff, ofExcept_eq_ok_iff, pure_eq_ok_iff] at h
      obtain ⟨field, _, ⟨hfield, rfl⟩, rfl, rfl⟩ := h
      refine ⟨ht, .offset ?_⟩
      rw [Token.numberIn, Token.numeric, if_pos hnumeric]
      exact hfield
    · rw [if_neg hnumeric] at h
      by_cases hword : t.kind = .word
      · rw [if_pos hword, pure_eq_ok_iff] at h
        obtain ⟨rfl, rfl⟩ := h
        exact ⟨ht, .label hword⟩
      · rw [if_neg hword, fail_eq_ok_iff] at h
        exact h.elim
  · rintro ⟨taken, htakes, hphrase⟩
    -- numbers and words are told apart by their kind alone
    cases hphrase with
    | @offset t field hnumber =>
        refine ⟨t, d, htakes, ?_⟩
        unfold Token.numberIn Token.numeric at hnumber
        by_cases hnumeric : t.kind.isNumeric
        · rw [if_pos hnumeric] at hnumber ⊢
          simp only [bind_eq_ok_iff, ofExcept_eq_ok_iff, pure_eq_ok_iff]
          exact ⟨field, d, ⟨hnumber, rfl⟩, rfl, rfl⟩
        · rw [if_neg hnumeric] at hnumber
          cases hnumber
    | @label t hword =>
        refine ⟨t, d, htakes, ?_⟩
        rw [if_neg (by simp [hword, TokenKind.isNumeric]), if_pos hword]
        exact pure_eq_ok_iff.mpr ⟨rfl, rfl⟩

/-- A register is no dash, so flags are absent where a register comes at once. -/
theorem nextIs_dash_of_register {flags : List Token} {c d e : Cursor} {t : Token} {r : Register}
    (hflags : c.Takes flags d) (ht : d.Takes [t] e) (hregister : t.register = .ok r)
    (hnil : flags = []) : c.nextIs .dash = false := by
  -- with no flags in between, the register itself is what comes next
  subst hnil
  rw [takes_nil.mp hflags, ht.nextIs, Token.kind_of_register hregister]
  rfl

theorem arithmetic_eq_ok_iff {head : Token} {m : Mnemonic} {operation : Arithmetic} {item : Item}
    {c d : Cursor} :
    arithmetic head m operation c = .ok item d ↔
      ∃ taken, c.Takes taken d ∧ ArithmeticPhrase m operation taken item := by
  simp only [arithmetic, bind_eq_ok_iff, flags_eq_ok_iff, converts_register.iff, comma_eq_ok_iff,
    operand_eq_ok_iff converts_constant, pure_eq_ok_iff]
  constructor
  · rintro ⟨letters, e, ⟨flags, hflags, hsetting, -⟩, destination, f, ⟨dt, hd, hdestination⟩,
      _, g, ⟨comma, hc, hcomma⟩, first, h, ⟨ft, hf, hfirst⟩, _, i, ⟨comma', hc', hcomma'⟩,
      second, j, ⟨st, hs, hsecond⟩, rfl, rfl⟩
    -- the five tokens behind the flags, each read where the one before it ends
    have hoperands := takes_five.mpr ⟨f, g, h, i, hd, hc, hf, hc', hs⟩
    exact ⟨_, hflags.trans hoperands,
      .intro hsetting hdestination hcomma hfirst hcomma' hsecond⟩
  · rintro ⟨_, htakes, hsetting, hdestination, hcomma, hfirst, hcomma', hsecond⟩
    obtain ⟨e, hflags, htakes⟩ := takes_append.mp htakes
    obtain ⟨f, g, h, i, hd, hc, hf, hc', hs⟩ := takes_five.mp htakes
    -- the reader asks whether there are flags; the phrase only says which
    have hnext := nextIs_dash_of_register hflags hd hdestination
    exact ⟨_, e, ⟨_, hflags, hsetting, hnext⟩, _, f, ⟨_, hd, hdestination⟩, (), g, ⟨_, hc, hcomma⟩,
      _, h, ⟨_, hf, hfirst⟩, (), i, ⟨_, hc', hcomma'⟩, _, d, ⟨_, hs, hsecond⟩, rfl, rfl⟩

theorem compare_eq_ok_iff {head : Token} {m : Mnemonic} {item : Item} {c d : Cursor} :
    compare head m c = .ok item d ↔ ∃ taken, c.Takes taken d ∧ ComparePhrase m taken item := by
  simp only [compare, bind_eq_ok_iff, converts_register.iff, comma_eq_ok_iff,
    operand_eq_ok_iff (converts_field _), pure_eq_ok_iff]
  constructor
  · rintro ⟨first, e, ⟨ft, hf, hfirst⟩, _, f, ⟨comma, hc, hcomma⟩, second, _,
      ⟨st, hs, hsecond⟩, rfl, rfl⟩
    exact ⟨_, takes_three.mpr ⟨_, _, hf, hc, hs⟩, .intro hfirst hcomma hsecond⟩
  · rintro ⟨_, htakes, hfirst, hcomma, hsecond⟩
    obtain ⟨e, f, hf, hc, hs⟩ := takes_three.mp htakes
    exact ⟨_, e, ⟨_, hf, hfirst⟩, (), f, ⟨_, hc, hcomma⟩, _, d, ⟨_, hs, hsecond⟩, rfl, rfl⟩

theorem move_eq_ok_iff {head : Token} {m : Mnemonic} {item : Item} {c d : Cursor} :
    move head m c = .ok item d ↔ ∃ taken, c.Takes taken d ∧ MovePhrase m taken item := by
  unfold move
  constructor
  · intro h
    cases hform : m.suffix with
    | none =>
        rw [hform] at h
        exact (fail_eq_ok_iff.mp h).elim
    | some suffix =>
        rw [hform] at h
        simp only [bind_eq_ok_iff, converts_register.iff, comma_eq_ok_iff] at h
        obtain ⟨destination, e, ⟨dt, hd, hdestination⟩, _, f, ⟨comma, hc, hcomma⟩, h⟩ := h
        have htakes {st : Token} (hs : f.Takes [st] d) : c.Takes [dt, comma, st] d :=
          takes_three.mpr ⟨e, f, hd, hc, hs⟩
        -- the suffix decides what is read in the last place, and the two tokens before it are the
        -- same
        cases suffix with
        | immediate =>
            simp only [bind_eq_ok_iff, (converts_field _).iff, pure_eq_ok_iff] at h
            obtain ⟨value, _, ⟨st, hs, hvalue⟩, rfl, rfl⟩ := h
            exact ⟨_, htakes hs, .immediate hform hdestination hcomma hvalue⟩
        | register =>
            simp only [bind_eq_ok_iff, converts_register.iff, pure_eq_ok_iff] at h
            obtain ⟨source, _, ⟨st, hs, hsource⟩, rfl, rfl⟩ := h
            exact ⟨_, htakes hs, .register hform hdestination hcomma hsource⟩
        | label =>
            simp only [bind_eq_ok_iff, label_eq_ok_iff, pure_eq_ok_iff] at h
            obtain ⟨_, _, ⟨st, hs, hword, rfl⟩, rfl, rfl⟩ := h
            exact ⟨_, htakes hs, .label hform hdestination hcomma hword⟩
  · rintro ⟨_, htakes, hphrase⟩
    cases hphrase with
    | immediate hform hdestination hcomma hvalue =>
        obtain ⟨e, f, hd, hc, hs⟩ := takes_three.mp htakes
        simp only [hform, bind_eq_ok_iff, converts_register.iff, comma_eq_ok_iff,
          (converts_field _).iff, pure_eq_ok_iff]
        exact ⟨_, e, ⟨_, hd, hdestination⟩, (), f, ⟨_, hc, hcomma⟩, _, d, ⟨_, hs, hvalue⟩, rfl, rfl⟩
    | register hform hdestination hcomma hsource =>
        obtain ⟨e, f, hd, hc, hs⟩ := takes_three.mp htakes
        simp only [hform, bind_eq_ok_iff, converts_register.iff, comma_eq_ok_iff, pure_eq_ok_iff]
        exact ⟨_, e, ⟨_, hd, hdestination⟩, (), f, ⟨_, hc, hcomma⟩, _, d, ⟨_, hs, hsource⟩, rfl,
          rfl⟩
    | label hform hdestination hcomma hword =>
        obtain ⟨e, f, hd, hc, hs⟩ := takes_three.mp htakes
        simp only [hform, bind_eq_ok_iff, converts_register.iff, comma_eq_ok_iff, label_eq_ok_iff,
          pure_eq_ok_iff]
        exact ⟨_, e, ⟨_, hd, hdestination⟩, (), f, ⟨_, hc, hcomma⟩, _, d, ⟨_, hs, hword, rfl⟩, rfl,
          rfl⟩

theorem moveTop_eq_ok_iff {head : Token} {m : Mnemonic} {item : Item} {c d : Cursor} :
    moveTop head m c = .ok item d ↔ ∃ taken, c.Takes taken d ∧ MoveTopPhrase m taken item := by
  unfold moveTop
  by_cases hform : m.suffix = none ∨ m.suffix = some .immediate
  · rw [if_pos (by simpa using hform)]
    simp only [bind_eq_ok_iff, converts_register.iff, comma_eq_ok_iff, (converts_field _).iff,
      pure_eq_ok_iff]
    constructor
    · rintro ⟨destination, e, ⟨dt, hd, hdestination⟩, _, f, ⟨comma, hc, hcomma⟩, value, _,
        ⟨st, hs, hvalue⟩, rfl, rfl⟩
      exact ⟨_, takes_three.mpr ⟨_, _, hd, hc, hs⟩, .intro hform hdestination hcomma hvalue⟩
    · rintro ⟨_, htakes, -, hdestination, hcomma, hvalue⟩
      obtain ⟨e, f, hd, hc, hs⟩ := takes_three.mp htakes
      exact ⟨_, e, ⟨_, hd, hdestination⟩, (), f, ⟨_, hc, hcomma⟩, _, d, ⟨_, hs, hvalue⟩, rfl, rfl⟩
  -- with another suffix the reader fails at once, and there is no phrase
  · rw [if_neg (by simpa using hform), fail_eq_ok_iff]
    constructor
    · exact False.elim
    · rintro ⟨_, -, hform', -⟩
      exact hform hform'

theorem transfer_eq_ok_iff {head : Token} {m : Mnemonic} {kind : TransferKind} {item : Item}
    {c d : Cursor} :
    transfer head m kind c = .ok item d ↔
      ∃ taken, c.Takes taken d ∧ TransferPhrase m kind taken item := by
  simp only [transfer, bind_eq_ok_iff, flags_eq_ok_iff, converts_register.iff, comma_eq_ok_iff,
    operand_eq_ok_iff (converts_field _), pure_eq_ok_iff]
  constructor
  · rintro ⟨letters, e, ⟨flags, hflags, hindexing, -⟩, destination, f, ⟨dt, hd, hdestination⟩,
      _, g, ⟨comma, hc, hcomma⟩, base, h, ⟨bt, hb, hbase⟩, _, i, ⟨comma', hc', hcomma'⟩,
      offset, j, ⟨st, hs, hoffset⟩, rfl, rfl⟩
    have hoperands := takes_five.mpr ⟨f, g, h, i, hd, hc, hb, hc', hs⟩
    exact ⟨_, hflags.trans hoperands,
      .intro hindexing hdestination hcomma hbase hcomma' hoffset⟩
  · rintro ⟨_, htakes, hindexing, hdestination, hcomma, hbase, hcomma', hoffset⟩
    obtain ⟨e, hflags, htakes⟩ := takes_append.mp htakes
    obtain ⟨f, g, h, i, hd, hc, hb, hc', hs⟩ := takes_five.mp htakes
    -- as in an arithmetic instruction, the first register is no dash
    have hnext := nextIs_dash_of_register hflags hd hdestination
    exact ⟨_, e, ⟨_, hflags, hindexing, hnext⟩, _, f, ⟨_, hd, hdestination⟩, (), g, ⟨_, hc, hcomma⟩,
      _, h, ⟨_, hb, hbase⟩, (), i, ⟨_, hc', hcomma'⟩, _, d, ⟨_, hs, hoffset⟩, rfl, rfl⟩

theorem stack_eq_ok_iff {head : Token} {m : Mnemonic} {stackKind : StackKind} {item : Item}
    {c d : Cursor} :
    stack head m stackKind c = .ok item d ↔
      ∃ taken, c.Takes taken d ∧ StackPhrase m stackKind taken item := by
  unfold stack
  by_cases hform : m.suffix = none
  · rw [if_neg (by simp [hform])]
    simp only [bind_eq_ok_iff, kind_eq_ok_iff, list_eq_ok_iff, pure_eq_ok_iff]
    constructor
    · rintro ⟨opening, e, ⟨ho, hopening⟩, registers, f, ⟨taken, htakes, hlist, -⟩, closing, _,
        ⟨hc, hclosing⟩, rfl, rfl⟩
      exact ⟨_, ho.cons (htakes.trans hc), .intro hform hopening hlist hclosing⟩
    · rintro ⟨_, htakes, -, hopening, hlist, hclosing⟩
      obtain ⟨e, ho, htakes⟩ := takes_cons.mp htakes
      obtain ⟨f, htakes, hc⟩ := takes_append.mp htakes
      -- the bracket behind the list is what tells the reader that no comma follows
      have hnext : f.nextIs .comma = false := by rw [hc.nextIs, hclosing]; rfl
      exact ⟨_, e, ⟨ho, hopening⟩, _, f, ⟨_, htakes, hlist, hnext⟩, _, d, ⟨hc, hclosing⟩, rfl, rfl⟩
  · rw [if_pos (Option.isSome_iff_ne_none.mpr hform), fail_eq_ok_iff]
    constructor
    · exact False.elim
    · rintro ⟨_, -, hform', -⟩
      exact hform hform'

theorem operands_eq_ok_iff {head : Token} {m : Mnemonic} {item : Item} {c d : Cursor} :
    operands head m c = .ok item d ↔ ∃ taken, c.Takes taken d ∧ OperandsPhrase m taken item := by
  unfold operands OperandsPhrase
  cases m.base with
  | branch | branchLink => exact branch_eq_ok_iff
  | and | orr | add | sub => exact arithmetic_eq_ok_iff
  | compare => exact compare_eq_ok_iff
  | move | moveWide => exact move_eq_ok_iff
  | moveTop => exact moveTop_eq_ok_iff
  | load | loadByte | store => exact transfer_eq_ok_iff
  | push | pop => exact stack_eq_ok_iff

/-! ### Operations

The first word of an operation is looked at three times, as `byte`, as `word` and as a mnemonic. A
phrase does not know of this order, and need not, since no word is two of these. -/

theorem spanFrom_eq_ok_iff {head : Token} {span : Span} {c d : Cursor} :
    spanFrom head c = .ok span d ↔ span = ⟨head.span.start, d.lastStop⟩ ∧ c = d := by
  unfold spanFrom
  simp only [bind_eq_ok_iff, get_eq_ok_iff, pure_eq_ok_iff]
  constructor
  · rintro ⟨_, _, ⟨rfl, rfl⟩, rfl, rfl⟩
    exact ⟨rfl, rfl⟩
  · rintro ⟨rfl, rfl⟩
    exact ⟨_, _, ⟨rfl, rfl⟩, rfl, rfl⟩

theorem bytes_eq_ok_iff {head : Token} {item : Item} {c d : Cursor} :
    bytes head c = .ok item d ↔
      ∃ equals taken literals contents, c.Takes (equals :: taken) d ∧ equals.kind = .equals ∧
        ListPhrase Token.hexLiteral taken literals ∧ d.nextIs .comma = false ∧
        bytesOfDigits? (literals.flatMap Token.digits) = some contents ∧
        item = .data (.bytes contents) := by
  simp only [bytes, bind_eq_ok_iff, kind_eq_ok_iff, list_eq_ok_iff, spanFrom_eq_ok_iff,
    ofExcept_eq_ok_iff, bytesOfLiterals_eq_ok_iff, pure_eq_ok_iff]
  constructor
  · rintro ⟨equals, e, ⟨he, hequals⟩, literals, f, ⟨taken, htakes, hlist, hnext⟩, _, _,
      ⟨-, rfl⟩, contents, _, ⟨hdigits, rfl⟩, rfl, rfl⟩
    exact ⟨equals, taken, literals, contents, he.cons htakes, hequals, hlist, hnext, hdigits, rfl⟩
  · rintro ⟨equals, taken, literals, contents, htakes, hequals, hlist, hnext, hdigits, rfl⟩
    obtain ⟨e, he, htakes⟩ := takes_cons.mp htakes
    exact ⟨equals, e, ⟨he, hequals⟩, literals, d, ⟨taken, htakes, hlist, hnext⟩, _, d, ⟨rfl, rfl⟩,
      contents, d, ⟨hdigits, rfl⟩, rfl, rfl⟩

theorem words_eq_ok_iff {item : Item} {c d : Cursor} :
    words c = .ok item d ↔
      ∃ equals taken contents, c.Takes (equals :: taken) d ∧ equals.kind = .equals ∧
        ListPhrase Token.dataWord taken contents ∧ d.nextIs .comma = false ∧
        item = .data (.words contents) := by
  simp only [words, bind_eq_ok_iff, kind_eq_ok_iff, list_eq_ok_iff, pure_eq_ok_iff]
  constructor
  · rintro ⟨equals, e, ⟨he, hequals⟩, contents, _, ⟨taken, htakes, hlist, hnext⟩, rfl, rfl⟩
    exact ⟨equals, taken, contents, he.cons htakes, hequals, hlist, hnext, rfl⟩
  · rintro ⟨equals, taken, contents, htakes, hequals, hlist, hnext, rfl⟩
    obtain ⟨e, he, htakes⟩ := takes_cons.mp htakes
    exact ⟨equals, e, ⟨he, hequals⟩, contents, d, ⟨taken, htakes, hlist, hnext⟩, rfl, rfl⟩

theorem afterHead_eq_ok_iff {head : Token} {item : Item} {c d : Cursor} :
    afterHead head c = .ok item d ↔
      ∃ taken, c.Takes taken d ∧ OperationPhrase head taken item ∧
        (head.isDirective = true → d.nextIs .comma = false) := by
  unfold afterHead
  constructor
  · intro h
    -- one case for each of the three readers, in the order of the checks
    by_cases hbyte : head.isNamed "byte"
    · rw [if_pos hbyte] at h
      obtain ⟨_, _, _, _, htakes, hmark, hlist, hnext, hdigits, rfl⟩ := bytes_eq_ok_iff.mp h
      exact ⟨_, htakes, .bytes hbyte hmark hlist hdigits, fun _ => hnext⟩
    · rw [if_neg hbyte] at h
      by_cases hword : head.isNamed "word"
      · rw [if_pos hword] at h
        obtain ⟨_, _, _, htakes, hmark, hlist, hnext, rfl⟩ := words_eq_ok_iff.mp h
        exact ⟨_, htakes, .words hword hmark hlist, fun _ => hnext⟩
      · rw [if_neg hword] at h
        cases hname : Mnemonic.ofWord? head.lexeme with
        | none =>
            rw [hname] at h
            exact (fail_eq_ok_iff.mp h).elim
        | some m =>
            rw [hname] at h
            obtain ⟨taken, htakes, hoperands⟩ := operands_eq_ok_iff.mp h
            exact ⟨taken, htakes, .instruction hname hoperands, by
              simp [Token.isDirective, hbyte, hword]⟩
  · rintro ⟨_, htakes, hphrase, hnext⟩
    cases hphrase with
    | bytes hbyte hmark hlist hdigits =>
        have hdirective : head.isDirective = true := by simp [Token.isDirective, hbyte]
        rw [if_pos hbyte]
        exact bytes_eq_ok_iff.mpr ⟨_, _, _, _, htakes, hmark, hlist, hnext hdirective, hdigits, rfl⟩
    | words hword hmark hlist =>
        -- the two directives have different names, so the first check fails
        have hdirective : head.isDirective = true := by simp [Token.isDirective, hword]
        have hbyte : head.isNamed "byte" = false := Token.isNamed_eq_false hword (by decide)
        rw [if_neg (by simp [hbyte]), if_pos hword]
        exact words_eq_ok_iff.mpr ⟨_, _, _, htakes, hmark, hlist, hnext hdirective, rfl⟩
    | @instruction m _ _ hname hoperands =>
        -- the word spells a mnemonic, so it names no directive
        have hnot {name : String} (hnone : Mnemonic.ofWord? name = none) :
            ¬head.isNamed name = true := fun hnamed => by
          rw [Token.ofWord?_eq_none_of_isNamed hnamed hnone] at hname
          cases hname
        rw [if_neg (hnot (by decide)), if_neg (hnot (by decide)), hname]
        exact operands_eq_ok_iff.mpr ⟨_, htakes, hoperands⟩

/-- An operation is read just where a word and the rest of its phrase stand; after a directive
no comma may follow. -/
theorem operation_eq_ok_iff {located : Located Item} {c d : Cursor} :
    operation c = .ok located d ↔
      ∃ head taken, c.Takes (head :: taken) d ∧ head.kind = .word ∧
        OperationPhrase head taken located.value ∧
        located.span = ⟨head.span.start, d.lastStop⟩ ∧
        (head.isDirective = true → d.nextIs .comma = false) := by
  unfold operation
  simp only [bind_eq_ok_iff, kind_eq_ok_iff, afterHead_eq_ok_iff, spanFrom_eq_ok_iff,
    pure_eq_ok_iff]
  constructor
  · rintro ⟨head, e, ⟨hh, hword⟩, item, f, ⟨taken, htakes, hphrase, hnext⟩, _, _, ⟨rfl, rfl⟩,
      rfl, rfl⟩
    exact ⟨head, taken, hh.cons htakes, hword, hphrase, rfl, hnext⟩
  · rintro ⟨head, taken, htakes, hword, hphrase, hspan, hnext⟩
    obtain ⟨e, hh, htakes⟩ := takes_cons.mp htakes
    refine ⟨head, e, ⟨hh, hword⟩, _, d, ⟨taken, htakes, hphrase, hnext⟩, _, d, ⟨rfl, rfl⟩, ?_, rfl⟩
    cases located
    cases hspan
    rfl

end Reader

end ArmAssembly
