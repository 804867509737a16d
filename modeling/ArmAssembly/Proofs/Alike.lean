import ArmAssembly.Proofs.Phrases
import ArmAssembly.Proofs.Scanning
import Mathlib

set_option autoImplicit false

/-! # Tokens that are spelled alike

Two tokens of one kind are alike if they differ at most in the case of their letters and in
their places. Wherever a token is read as something else than the name of a label, all that
counts is what it has in common with the tokens that are alike: directives, mnemonics, flags,
registers, numbers and digits are the same. Of a number only its value counts, but in a `byte`
directive. So a phrase without names is a phrase of the same item when its tokens are replaced by
tokens that are alike or numbers of the same value (`StackPhrase.same` and its siblings).
-/

namespace ArmAssembly

/-! ## Case and digits

Characters are too many to be tried one by one, but only the 26 small letters are changed by putting
them in capitals. So what is to be shown of a character is decided for these, and holds of all
others because nothing happens to them. -/

theorem exists_of_isLower {c : Char} (h : c.isLower = true) :
    ∃ k : Fin 26, c = Char.ofNat (97 + k) := by
  simp only [Char.isLower, Bool.and_eq_true, decide_eq_true_eq, UInt32.le_iff_toNat_le,
    ge_iff_le] at h
  have hbounds : 97 ≤ c.toNat ∧ c.toNat ≤ 122 := h
  refine ⟨⟨c.toNat - 97, by omega⟩, ?_⟩
  rw [Nat.add_sub_cancel' hbounds.1, Char.ofNat_toNat]

/-- What is the same for the 26 letters in both cases does not depend on case. -/
theorem apply_toUpper {α : Type} {f : Char → α}
    (h : ∀ k : Fin 26, f (Char.ofNat (97 + k)).toUpper = f (Char.ofNat (97 + k))) (c : Char) :
    f c.toUpper = f c := by
  by_cases hlower : c.isLower = true
  · obtain ⟨k, rfl⟩ := exists_of_isLower hlower
    exact h k
  · rw [Char.toUpper_eq_of_not_isLower hlower]

theorem isDigit_toUpper (c : Char) : c.toUpper.isDigit = c.isDigit :=
  apply_toUpper (by decide) c

theorem isHexDigit_toUpper (c : Char) : isHexDigit c.toUpper = isHexDigit c :=
  apply_toUpper (by decide) c

theorem digitValue_toUpper (c : Char) : digitValue c.toUpper = digitValue c :=
  apply_toUpper (by decide) c

theorem all_isDigit_toUpper (cs : List Char) :
    (cs.map Char.toUpper).all Char.isDigit = cs.all Char.isDigit := by
  rw [List.all_map]
  exact congrArg cs.all (funext isDigit_toUpper)

theorem numeralValue_toUpper (base : Nat) (digits : List Char) :
    numeralValue base (digits.map Char.toUpper) = numeralValue base digits := by
  unfold numeralValue
  rw [List.foldl_map]
  simp only [digitValue_toUpper]

theorem bytesOfDigits?_toUpper (digits : List Char) :
    bytesOfDigits? (digits.map Char.toUpper) = bytesOfDigits? digits := by
  fun_induction bytesOfDigits? digits with
  | case1 => rfl
  | case2 c => rfl
  | case3 high low digits hhex ih =>
      -- a pair that is a byte in one case is the same byte in the other
      have hvalue := numeralValue_toUpper 16 [high, low]
      simp only [List.map_cons, List.map_nil] at hvalue
      simp only [List.map_cons, bytesOfDigits?, isHexDigit_toUpper, hhex, if_true, ih, hvalue]
  | case4 high low digits hhex =>
      simp only [List.map_cons, bytesOfDigits?, isHexDigit_toUpper, hhex, if_false,
        Bool.false_eq_true]

/-! ## Alike tokens -/

namespace Token

/-- The tokens are of one kind, and their lexemes differ at most in the case of letters. -/
structure Alike (t u : Token) : Prop where
  kind : u.kind = t.kind
  folded : folded u.lexeme = folded t.lexeme

variable {t u : Token}

theorem Alike.isNamed (h : t.Alike u) (name : String) : u.isNamed name = t.isNamed name := by
  rw [Token.isNamed, Token.isNamed, h.kind, sameFolded, sameFolded, h.folded]

theorem Alike.ofWord? (h : t.Alike u) : Mnemonic.ofWord? u.lexeme = Mnemonic.ofWord? t.lexeme := by
  rw [Mnemonic.ofWord?, Mnemonic.ofWord?, h.folded]

theorem Alike.digits (h : t.Alike u) :
    u.digits.map Char.toUpper = t.digits.map Char.toUpper := by
  have hfolded := h.folded
  unfold ArmAssembly.folded at hfolded
  unfold Token.digits
  rw [h.kind]
  by_cases hhex : t.kind = .hexNumber
  · rw [if_pos hhex, if_pos hhex, List.map_drop, List.map_drop, hfolded]
  · rw [if_neg hhex, if_neg hhex, hfolded]

theorem Alike.value (h : t.Alike u) : u.value = t.value := by
  rw [Token.value, Token.value, h.kind, ← numeralValue_toUpper _ u.digits, h.digits,
    numeralValue_toUpper]

theorem Alike.register {r : Register} (h : t.Alike u) (ht : t.register = .ok r) :
    u.register = .ok r := by
  obtain ⟨hkind, letter, digits, hlexeme, hletter, hne, hdigits, hnumber⟩ :=
    register_eq_ok_iff.mp ht
  have hfolded := h.folded
  unfold ArmAssembly.folded at hfolded
  rw [hlexeme, List.map_cons, List.map_eq_cons_iff] at hfolded
  obtain ⟨letter', digits', hlexeme', hletter', hdigits'⟩ := hfolded
  refine register_eq_ok_iff.mpr ⟨h.kind.trans hkind, letter', digits', hlexeme',
    hletter'.trans hletter, ?_, ?_, ?_⟩
  -- the digits are as many and stand for the same number
  · rintro rfl
    exact hne (List.map_eq_nil_iff.mp hdigits'.symm)
  · rw [← all_isDigit_toUpper, hdigits', all_isDigit_toUpper, hdigits]
  · rw [hnumber, ← numeralValue_toUpper 10 digits', hdigits', numeralValue_toUpper]

/-! ## Tokens that mean the same

Numbers that are spelled otherwise have the same value but not the same lexeme, so they are no alike
tokens. Both notions are joined here, because one token may be replaced by a number of another base
while its neighbours are put in capitals. -/

/-- The tokens are alike, or they are numbers of the same value, be it in different bases. -/
inductive SameMeaning (t u : Token) : Prop where
  | alike (alike : t.Alike u)
  | number (numeric : t.kind.isNumeric = true) (numeric' : u.kind.isNumeric = true)
      (value : u.value = t.value)

namespace SameMeaning

/-- Tokens that are no numbers mean the same only if they are alike. -/
theorem alike_of_kind (h : t.SameMeaning u) {kind : TokenKind} (hkind : t.kind = kind)
    (hplain : kind.isNumeric = false) : t.Alike u := by
  cases h with
  | alike alike => exact alike
  | number numeric =>
      rw [hkind, hplain] at numeric
      cases numeric

theorem kind (h : t.SameMeaning u) {kind : TokenKind} (hkind : t.kind = kind)
    (hplain : kind.isNumeric = false) : u.kind = kind :=
  (h.alike_of_kind hkind hplain).kind.trans hkind

theorem isNumeric (h : t.SameMeaning u) : u.kind.isNumeric = t.kind.isNumeric := by
  cases h with
  | alike alike => rw [alike.kind]
  | number numeric numeric' => rw [numeric, numeric']

theorem value_eq (h : t.SameMeaning u) : u.value = t.value := by
  cases h with
  | alike alike => exact alike.value
  | number _ _ value => exact value

theorem numberIn {place : OperandPlace} {bits : BitVec place.width} (h : t.SameMeaning u)
    (ht : t.numberIn place = .ok bits) : u.numberIn place = .ok bits := by
  rw [numberIn_eq_ok_iff] at ht ⊢
  rwa [h.isNumeric, h.value_eq]

theorem constant {b : RotatedByte} (h : t.SameMeaning u) (ht : t.constant = .ok b) :
    u.constant = .ok b := by
  rw [constant_eq_ok_iff] at ht ⊢
  rwa [h.isNumeric, h.value_eq]

theorem dataWord {word : BitVec 32} (h : t.SameMeaning u) (ht : t.dataWord = .ok word) :
    u.dataWord = .ok word := by
  have hnumber : t.numberIn .dataWord = .ok word := ht
  exact h.numberIn hnumber

theorem register {r : Register} (h : t.SameMeaning u) (ht : t.register = .ok r) :
    u.register = .ok r :=
  (h.alike_of_kind (kind_of_register ht) rfl).register ht

end SameMeaning

end Token

/-! ## Phrases without names

The tokens of a phrase are replaced one by one. A phrase has a fixed number of tokens, apart from
its flags and its lists, so the tokens that replace them are got out of `List.Forall₂` by number. -/

section Pairs

variable {α β : Type} {R : α → β → Prop} {w : List β}

theorem forall₂_append_left_iff {u v : List α} :
    List.Forall₂ R (u ++ v) w ↔
      ∃ u' v', List.Forall₂ R u u' ∧ List.Forall₂ R v v' ∧ w = u' ++ v' := by
  constructor
  · intro h
    induction u generalizing w with
    | nil => exact ⟨[], w, .nil, h, rfl⟩
    | cons a u ih =>
        rw [List.cons_append] at h
        obtain ⟨b, w', hab, hrest, rfl⟩ := List.forall₂_cons_left_iff.mp h
        obtain ⟨u', v', hu, hv, rfl⟩ := ih hrest
        exact ⟨b :: u', v', .cons hab hu, hv, rfl⟩
  · rintro ⟨u', v', hu, hv, rfl⟩
    exact List.rel_append hu hv

theorem forall₂_one {a : α} : List.Forall₂ R [a] w ↔ ∃ b, R a b ∧ w = [b] := by
  simp [List.forall₂_cons_left_iff]

theorem forall₂_three {a b c : α} :
    List.Forall₂ R [a, b, c] w ↔ ∃ a' b' c', R a a' ∧ R b b' ∧ R c c' ∧ w = [a', b', c'] := by
  simp [List.forall₂_cons_left_iff, and_assoc]

theorem forall₂_five {a b c d e : α} :
    List.Forall₂ R [a, b, c, d, e] w ↔
      ∃ a' b' c' d' e', R a a' ∧ R b b' ∧ R c c' ∧ R d d' ∧ R e e' ∧
        w = [a', b', c', d', e'] := by
  simp [List.forall₂_cons_left_iff, and_assoc]

end Pairs

section Phrases

variable {m : Mnemonic} {taken taken' : List Token} {item : Item}

theorem FlagPhrase.same {accepted : String} {letters : List Char}
    (h : FlagPhrase accepted taken letters)
    (hsame : List.Forall₂ Token.SameMeaning taken taken') :
    FlagPhrase accepted taken' letters := by
  cases h with
  | absent =>
      cases hsame
      exact .absent
  | present mark word known =>
      obtain ⟨dash, _, hdash, hrest, rfl⟩ := List.forall₂_cons_left_iff.mp hsame
      obtain ⟨word', hword, rfl⟩ := forall₂_one.mp hrest
      -- a word is no number, so it is replaced by a word that is alike
      have halike := hword.alike_of_kind word rfl
      rw [← halike.folded] at known ⊢
      exact .present (hdash.kind mark rfl) (halike.kind.trans word) known

theorem LastPhrase.same {α : Type} {suffix : Option Suffix} {convert : Token → Except Problem α}
    {t u : Token} {operand : Operand α} (h : LastPhrase suffix convert t operand)
    (hsame : t.SameMeaning u) (hconvert : ∀ a, convert t = .ok a → convert u = .ok a) :
    LastPhrase suffix convert u operand := by
  cases h with
  | immediate form number => exact .immediate form (hconvert _ number)
  | register form source => exact .register form (hsame.register source)

section Lists

variable {α β : Type} {convert : Token → Except Problem α} {convert' : Token → Except Problem β}
  {R : Token → Token → Prop} {S : α → β → Prop} {values : List α}

theorem RestPhrase.related (h : RestPhrase convert taken values)
    (hrelated : List.Forall₂ R taken taken')
    (hcomma : ∀ t u, R t u → t.kind = .comma → u.kind = .comma)
    (hconvert : ∀ t u a, R t u → convert t = .ok a → ∃ b, convert' u = .ok b ∧ S a b) :
    ∃ values', RestPhrase convert' taken' values' ∧ List.Forall₂ S values values' := by
  induction h generalizing taken' with
  | done =>
      cases hrelated
      exact ⟨[], .done, .nil⟩
  | more separator item rest ih =>
      obtain ⟨comma, _, hseparator, hbehind, rfl⟩ := List.forall₂_cons_left_iff.mp hrelated
      obtain ⟨u, _, hu, hrest, rfl⟩ := List.forall₂_cons_left_iff.mp hbehind
      obtain ⟨b, hb, hab⟩ := hconvert _ u _ hu item
      obtain ⟨values', hrest, hvalues⟩ := ih hrest
      exact ⟨b :: values', .more (hcomma _ _ hseparator separator) hb hrest, .cons hab hvalues⟩

/-- A list stands for values that are related to those of another if its items are, one by one. -/
theorem ListPhrase.related (h : ListPhrase convert taken values)
    (hrelated : List.Forall₂ R taken taken')
    (hcomma : ∀ t u, R t u → t.kind = .comma → u.kind = .comma)
    (hconvert : ∀ t u a, R t u → convert t = .ok a → ∃ b, convert' u = .ok b ∧ S a b) :
    ∃ values', ListPhrase convert' taken' values' ∧ List.Forall₂ S values values' := by
  cases h with
  | intro item rest =>
      obtain ⟨u, _, hu, hrest, rfl⟩ := List.forall₂_cons_left_iff.mp hrelated
      obtain ⟨b, hb, hab⟩ := hconvert _ u _ hu item
      obtain ⟨values', hrest, hvalues⟩ := rest.related hrest hcomma hconvert
      exact ⟨b :: values', .intro hb hrest, .cons hab hvalues⟩

/-- A list of tokens that mean the same stands for the same values, if each token does. -/
theorem ListPhrase.same (h : ListPhrase convert taken values)
    (hsame : List.Forall₂ Token.SameMeaning taken taken')
    (hconvert : ∀ t u a, Token.SameMeaning t u → convert t = .ok a → convert u = .ok a) :
    ListPhrase convert taken' values := by
  obtain ⟨values', hphrase, hvalues⟩ := h.related hsame (fun _ _ htu ht => htu.kind ht rfl)
    fun t u a htu ha => ⟨a, hconvert t u a htu ha, rfl⟩
  rw [List.forall₂_eq_eq_eq] at hvalues
  rwa [hvalues]

end Lists

/-- The digits of literals that are alike differ at most in case. -/
theorem digits_toUpper {literals literals' : List Token}
    (h : List.Forall₂ Token.Alike literals literals') :
    (literals'.flatMap Token.digits).map Char.toUpper =
      (literals.flatMap Token.digits).map Char.toUpper := by
  induction h with
  | nil => rfl
  | cons halike _ ih =>
      simp only [List.flatMap_cons, List.map_append, halike.digits, ih]

theorem ArithmeticPhrase.same {operation : Arithmetic}
    (h : ArithmeticPhrase m operation taken item)
    (hsame : List.Forall₂ Token.SameMeaning taken taken') :
    ArithmeticPhrase m operation taken' item := by
  cases h with
  | intro hsetting hdestination hseparator hfirst hseparator' hsecond =>
      obtain ⟨flags, _, hflags, hrest, rfl⟩ := forall₂_append_left_iff.mp hsame
      obtain ⟨d, comma, f, comma', s, hd, hc, hf, hc', hs, rfl⟩ := forall₂_five.mp hrest
      exact .intro (hsetting.same hflags) (hd.register hdestination) (hc.kind hseparator rfl)
        (hf.register hfirst) (hc'.kind hseparator' rfl)
        (hsecond.same hs fun _ => hs.constant)

theorem ComparePhrase.same (h : ComparePhrase m taken item)
    (hsame : List.Forall₂ Token.SameMeaning taken taken') : ComparePhrase m taken' item := by
  cases h with
  | intro hfirst hseparator hsecond =>
      obtain ⟨f, comma, s, hf, hc, hs, rfl⟩ := forall₂_three.mp hsame
      exact .intro (hf.register hfirst) (hc.kind hseparator rfl)
        (hsecond.same hs fun _ => hs.numberIn)

theorem MoveTopPhrase.same (h : MoveTopPhrase m taken item)
    (hsame : List.Forall₂ Token.SameMeaning taken taken') : MoveTopPhrase m taken' item := by
  cases h with
  | intro hform hdestination hseparator hnumber =>
      obtain ⟨d, comma, s, hd, hc, hs, rfl⟩ := forall₂_three.mp hsame
      exact .intro hform (hd.register hdestination) (hc.kind hseparator rfl) (hs.numberIn hnumber)

theorem TransferPhrase.same {kind : TransferKind} (h : TransferPhrase m kind taken item)
    (hsame : List.Forall₂ Token.SameMeaning taken taken') : TransferPhrase m kind taken' item := by
  cases h with
  | intro hindexing hdestination hseparator hbase hseparator' hoffset =>
      obtain ⟨flags, _, hflags, hrest, rfl⟩ := forall₂_append_left_iff.mp hsame
      obtain ⟨d, comma, b, comma', s, hd, hc, hb, hc', hs, rfl⟩ := forall₂_five.mp hrest
      exact .intro (hindexing.same hflags) (hd.register hdestination) (hc.kind hseparator rfl)
        (hb.register hbase) (hc'.kind hseparator' rfl)
        (hoffset.same hs fun _ => hs.numberIn)

theorem StackPhrase.same {kind : StackKind} (h : StackPhrase m kind taken item)
    (hsame : List.Forall₂ Token.SameMeaning taken taken') : StackPhrase m kind taken' item := by
  cases h with
  | intro hform hopening hlist hclosing =>
      obtain ⟨opening, _, ho, hrest, rfl⟩ := List.forall₂_cons_left_iff.mp hsame
      obtain ⟨list, _, hl, hlast, rfl⟩ := forall₂_append_left_iff.mp hrest
      obtain ⟨closing, hc, rfl⟩ := forall₂_one.mp hlast
      exact .intro hform (ho.kind hopening rfl)
        (hlist.same hl fun _ _ _ htu => htu.register) (hc.kind hclosing rfl)

end Phrases

end ArmAssembly
