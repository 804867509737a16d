import ArmAssembly.Proofs.Lossless
import ArmAssembly.Proofs.Mnemonics

set_option autoImplicit false

/-! # What an instruction word can be taken apart into

A mnemonic spells a word if the word is, in capitals, the base name, letters for the condition
and a letter for the suffix (`Mnemonic.Spells`). A word is taken apart into the mnemonic with
the longest base name among those that spell it, and it is refused if there is none. No ending
begins with a letter that makes a base name longer, except that `L` makes `BL` out of `B`; so no
word but `BL` has two decompositions (`Mnemonic.ofWord?_exact`). The cuts are made between
characters, also where they are counted in bytes.
-/

namespace ArmAssembly

/-! ## Decompositions

What counts as a decomposition is told by how it is written: a base name, a condition or nothing,
and a letter or nothing. No part of it says which base name is tried first. -/

/-- The letters behind a base name that stand for a condition: the two of its suffix, or none
for `always`. -/
inductive Condition.Spelled : Condition → List Char → Prop where
  | unwritten : Spelled .always []
  | written (condition : Condition) : Spelled condition condition.suffix.toList

/-- The suffix as the last letter of a word in capitals, if there is one. -/
def Suffix.capitals : Option Suffix → List Char
  | none => []
  | some immediate => ['I']
  | some register => ['R']
  | some label => ['L']

/-- In capitals, the word is the base name, `letters` for the condition and the letter of the
suffix. -/
structure Mnemonic.Spells (m : Mnemonic) (letters : List Char) (word : String) : Prop where
  condition : m.condition.Spelled letters
  word_eq : folded word = m.base.text.toList ++ (letters ++ Suffix.capitals m.suffix)

/-! ## Endings -/

/-- The text has no small letters. -/
def InCapitals (text : List Char) : Prop := text.map Char.toUpper = text

theorem inCapitals_folded (word : String) : InCapitals (folded word) := by
  simp [InCapitals, folded, List.map_map, Function.comp_def, Char.toUpper_toUpper_eq_toUpper]

theorem InCapitals.append_iff {u v : List Char} :
    InCapitals (u ++ v) ↔ InCapitals u ∧ InCapitals v := by
  unfold InCapitals
  rw [List.map_append]
  constructor
  · exact fun h => List.append_inj h (List.length_map _)
  · rintro ⟨hu, hv⟩
    rw [hu, hv]

theorem Condition.ofSuffix?_eq_some_iff {letters : List Char} {condition : Condition}
    (hletters : InCapitals letters) :
    Condition.ofSuffix? letters = some condition ↔ letters = condition.suffix.toList := by
  unfold Condition.ofSuffix?
  rw [hletters]
  constructor
  · intro h
    have hfound := List.find?_some h
    rw [beq_iff_eq] at hfound
    rw [← hfound]
    cases condition <;> decide
  · rintro rfl
    cases condition <;> decide

theorem Suffix.ofLetter?_eq_some_iff {letter : Char} {suffix : Suffix} :
    Suffix.ofLetter? letter = some suffix ↔ [letter] = Suffix.capitals (some suffix) := by
  constructor
  · intro h
    unfold Suffix.ofLetter? at h
    split at h <;> cases h <;> rfl
  · intro h
    cases suffix <;> cases h <;> rfl

namespace BaseName

theorem longestFirst_pairwise :
    longestFirst.Pairwise fun b b' => b'.text.length ≤ b.text.length := by
  decide

theorem text_inj {b b' : BaseName} (h : b.text = b'.text) : b = b' := by
  have hall : ∀ b ∈ longestFirst, ∀ b' ∈ longestFirst, b.text = b'.text → b = b' := by decide
  exact hall b (mem_longestFirst b) b' (mem_longestFirst b') h

end BaseName

namespace Mnemonic

variable {rest : List Char} {condition : Condition} {suffix : Option Suffix}

/-- An ending is letters for a condition and the letter of a suffix, either of which may be
missing. -/
theorem ending?_eq_some_iff (hrest : InCapitals rest) :
    ending? rest = some (condition, suffix) ↔
      ∃ letters, condition.Spelled letters ∧ rest = letters ++ Suffix.capitals suffix := by
  constructor
  · intro h
    match rest, h with
    | [], h =>
        cases h
        exact ⟨[], .unwritten, rfl⟩
    | [s], h =>
        obtain ⟨found, hfound, heq⟩ := Option.map_eq_some_iff.mp h
        cases heq
        exact ⟨[], .unwritten, Suffix.ofLetter?_eq_some_iff.mp hfound⟩
    | [c, d], h =>
        obtain ⟨found, hfound, heq⟩ := Option.map_eq_some_iff.mp h
        cases heq
        rw [Condition.ofSuffix?_eq_some_iff hrest] at hfound
        exact ⟨[c, d], hfound ▸ .written _, rfl⟩
    | [c, d, s], h =>
        obtain ⟨found, hfound, h⟩ := Option.bind_eq_some_iff.mp h
        obtain ⟨letter, hletter, heq⟩ := Option.bind_eq_some_iff.mp h
        cases heq
        have hletters : InCapitals [c, d] := (InCapitals.append_iff (v := [s]).mp hrest).1
        rw [Condition.ofSuffix?_eq_some_iff hletters] at hfound
        rw [Suffix.ofLetter?_eq_some_iff] at hletter
        exact ⟨[c, d], hfound ▸ .written _, congrArg ([c, d] ++ ·) hletter⟩
  · rintro ⟨letters, hletters, rfl⟩
    -- the spellings are finitely many, and all are read back
    cases hletters with
    | unwritten => rcases suffix with _ | _ | _ | _ <;> rfl
    | written condition =>
        cases condition <;> rcases suffix with _ | _ | _ | _ <;> decide

/-! ### In bytes

The lengths may be counted in bytes as well. A character that takes more than one byte is no letter
of a condition or suffix, so an ending comes to the same when it is counted so. -/

/-- The suffix that a text of one capital letter selects. -/
def suffixOf? : List Char → Option Suffix
  | [letter] => Suffix.ofLetter? letter
  | _ => none

/-- Reads an ending by counting its bytes. A condition takes two of them, and is refused where
the second byte is not the last of a character. -/
def endingInBytes? (rest : List Char) : Option (Condition × Option Suffix) :=
  match byteLength rest with
  | 0 => some (.always, none)
  | 1 => (suffixOf? rest).map fun suffix => (.always, some suffix)
  | 2 => (Condition.ofSuffix? rest).map fun condition => (condition, none)
  | 3 => do
    let letters ← takeBytes rest 2
    let letter ← dropBytes rest 2
    let condition ← Condition.ofSuffix? letters
    let suffix ← suffixOf? letter
    return (condition, some suffix)
  | _ => none

theorem append_of_takeBytes {text u v : List Char} {n : Nat} (htake : takeBytes text n = some u)
    (hdrop : dropBytes text n = some v) : text = u ++ v := by
  obtain ⟨before, rfl, rfl⟩ := exists_of_dropBytes hdrop
  rw [takeBytes_append] at htake
  cases htake
  rfl

theorem suffixOf?_eq_some_iff {letters : List Char} {suffix : Suffix} :
    suffixOf? letters = some suffix ↔ letters = Suffix.capitals (some suffix) := by
  constructor
  · intro h
    unfold suffixOf? at h
    split at h
    · exact Suffix.ofLetter?_eq_some_iff.mp h
    · cases h
  · rintro rfl
    cases suffix <;> rfl

theorem endingInBytes?_eq_some_iff (hrest : InCapitals rest) :
    endingInBytes? rest = some (condition, suffix) ↔
      ∃ letters, condition.Spelled letters ∧ rest = letters ++ Suffix.capitals suffix := by
  constructor
  · intro h
    unfold endingInBytes? at h
    split at h
    · next hlength =>
        cases h
        cases rest with
        | nil => exact ⟨[], .unwritten, rfl⟩
        | cons c text => exact absurd hlength (byteLength_cons_pos c text).ne'
    · obtain ⟨found, hfound, heq⟩ := Option.map_eq_some_iff.mp h
      cases heq
      exact ⟨[], .unwritten, suffixOf?_eq_some_iff.mp hfound⟩
    · obtain ⟨found, hfound, heq⟩ := Option.map_eq_some_iff.mp h
      cases heq
      rw [Condition.ofSuffix?_eq_some_iff hrest] at hfound
      exact ⟨rest, hfound ▸ .written _, (List.append_nil _).symm⟩
    · obtain ⟨letters, htake, h⟩ := Option.bind_eq_some_iff.mp h
      obtain ⟨letter, hdrop, h⟩ := Option.bind_eq_some_iff.mp h
      obtain ⟨found, hfound, h⟩ := Option.bind_eq_some_iff.mp h
      obtain ⟨last, hlast, heq⟩ := Option.bind_eq_some_iff.mp h
      cases heq
      have happend := append_of_takeBytes htake hdrop
      rw [happend, InCapitals.append_iff] at hrest
      rw [Condition.ofSuffix?_eq_some_iff hrest.1] at hfound
      rw [suffixOf?_eq_some_iff] at hlast
      exact ⟨letters, hfound ▸ .written _, hlast ▸ happend⟩
    · cases h
  · rintro ⟨letters, hletters, rfl⟩
    cases hletters with
    | unwritten => rcases suffix with _ | _ | _ | _ <;> rfl
    | written condition =>
        cases condition <;> rcases suffix with _ | _ | _ | _ <;> decide

/-- An ending is read alike by characters and by bytes. -/
theorem endingInBytes?_eq (hrest : InCapitals rest) : endingInBytes? rest = ending? rest := by
  refine Option.ext fun (condition, suffix) => ?_
  rw [endingInBytes?_eq_some_iff hrest, ending?_eq_some_iff hrest]

/-! ## Words -/

variable {word : String} {m other : Mnemonic} {base : BaseName} {letters letters' : List Char}

/-- A word is taken apart at a base name into the mnemonic with this base name that spells it. -/
theorem withBase?_eq_some_iff :
    withBase? (folded word) base = some m ↔ m.base = base ∧ ∃ letters, m.Spells letters word := by
  constructor
  · intro h
    simp only [withBase?, Option.ite_none_right_eq_some] at h
    obtain ⟨hbegins, h⟩ := h
    obtain ⟨rest, hrest⟩ := List.isPrefixOf_iff_prefix.mp hbegins
    rw [← hrest, ← String.length_toList, List.drop_left] at h
    obtain ⟨⟨condition, suffix⟩, hending, rfl⟩ := Option.map_eq_some_iff.mp h
    have hcapitals := inCapitals_folded word
    rw [← hrest, InCapitals.append_iff] at hcapitals
    obtain ⟨letters, hletters, rfl⟩ := (ending?_eq_some_iff hcapitals.2).mp hending
    exact ⟨rfl, letters, hletters, hrest.symm⟩
  · rintro ⟨rfl, letters, hspells⟩
    have hcapitals := inCapitals_folded word
    rw [hspells.word_eq, InCapitals.append_iff] at hcapitals
    rw [hspells.word_eq, withBase?_append,
      (ending?_eq_some_iff hcapitals.2).mpr ⟨letters, hspells.condition, rfl⟩]
    rfl

/-- The cut behind a base name falls between two characters. -/
theorem withBase?_in_bytes (hbegins : base.text.toList <+: folded word) :
    ∃ rest, dropBytes (folded word) (byteLength base.text.toList) = some rest ∧
      withBase? (folded word) base =
        (endingInBytes? rest).map fun (condition, suffix) => ⟨base, condition, suffix⟩ := by
  obtain ⟨rest, hrest⟩ := hbegins
  have hcapitals := inCapitals_folded word
  rw [← hrest, InCapitals.append_iff] at hcapitals
  refine ⟨rest, ?_, ?_⟩
  · rw [← hrest]
    exact dropBytes_append _ _
  · rw [← hrest, withBase?_append, endingInBytes?_eq hcapitals.2]

/-! ### The longest base name -/

/-- Of the mnemonics that spell a word, the one that is found has the longest base name. -/
theorem length_le_of_ofWord? (h : ofWord? word = some m) (hother : other.Spells letters word) :
    other.base.text.length ≤ m.base.text.length := by
  obtain ⟨earlier, base, later, hlist, hbase, hnone⟩ := List.findSome?_eq_some_iff.mp h
  obtain ⟨rfl, -⟩ := withBase?_eq_some_iff.mp hbase
  have hmem := BaseName.mem_longestFirst other.base
  have hsorted := BaseName.longestFirst_pairwise
  rw [hlist] at hmem hsorted
  rcases List.mem_append.mp hmem with hearlier | hbehind
  · -- a base name that is tried earlier does not spell the word
    have hspells := withBase?_eq_some_iff.mpr ⟨rfl, letters, hother⟩
    rw [hnone _ hearlier] at hspells
    cases hspells
  · rcases List.mem_cons.mp hbehind with heq | hlater
    · rw [heq]
    · exact (List.pairwise_cons.mp (List.pairwise_append.mp hsorted).2.1).1 _ hlater

theorem exists_ofWord? (h : m.Spells letters word) : ∃ found, ofWord? word = some found := by
  refine Option.isSome_iff_exists.mp (List.findSome?_isSome_iff.mpr
    ⟨m.base, BaseName.mem_longestFirst _, ?_⟩)
  rw [withBase?_eq_some_iff.mpr ⟨rfl, letters, h⟩]
  rfl

theorem exists_spells_of_ofWord? (h : ofWord? word = some m) :
    ∃ letters, m.Spells letters word := by
  obtain ⟨base, -, hbase⟩ := List.exists_of_findSome?_eq_some h
  exact (withBase?_eq_some_iff.mp hbase).2

/-- Base names of the same length in front of one word are the same. -/
theorem Spells.base_eq_of_length (h : m.Spells letters word) (h' : other.Spells letters' word)
    (hlength : m.base.text.length = other.base.text.length) : m.base = other.base := by
  rw [← String.length_toList, ← String.length_toList] at hlength
  have happend := h.word_eq.symm.trans h'.word_eq
  exact BaseName.text_inj (String.toList_inj.mp (List.append_inj happend hlength).1)

/-- One base name leaves one mnemonic. -/
theorem Spells.eq_of_base (h : m.Spells letters word) (h' : other.Spells letters' word)
    (hbase : m.base = other.base) : m = other := by
  have hm := withBase?_eq_some_iff.mpr ⟨hbase, letters, h⟩
  rw [withBase?_eq_some_iff.mpr ⟨rfl, letters', h'⟩] at hm
  exact (Option.some.inj hm).symm

/-! ### One decomposition

Where one base name begins with another, it is longer by a `W`, a `T`, a `B` or an `L`. This letter
would have to begin the ending behind the shorter one. No ending begins with one of the first three,
and one that begins with an `L` leaves nothing to stand behind the longer one. -/

/-- No ending begins with a letter that makes a base name longer by one. -/
theorem head_of_ending {c : Char} (hc : c ∈ ['W', 'T', 'B']) (hletters : condition.Spelled letters)
    (rest : List Char) : letters ++ Suffix.capitals suffix ≠ c :: rest := by
  intro heq
  cases hletters with
  | unwritten =>
      rcases suffix with _ | _ | _ | _ <;> cases heq <;> exact absurd hc (by decide)
  | written condition =>
      cases condition <;> cases heq <;> exact absurd hc (by decide)

/-- Behind an `L` that begins an ending no other ending goes on: `LT` and `LE` would leave `T`
or `E`, and the suffix is the last letter. -/
theorem eq_nil_of_label {condition' : Condition} {suffix' : Option Suffix}
    (hletters : condition.Spelled letters) (hletters' : condition'.Spelled letters')
    (h : letters ++ Suffix.capitals suffix = 'L' :: (letters' ++ Suffix.capitals suffix')) :
    letters' ++ Suffix.capitals suffix' = [] := by
  obtain ⟨hhead, hrest⟩ : (letters ++ Suffix.capitals suffix).head? = some 'L' ∧
      (letters ++ Suffix.capitals suffix).tail = letters' ++ Suffix.capitals suffix' := by
    rw [h]
    exact ⟨rfl, rfl⟩
  cases hletters with
  | unwritten =>
      rcases suffix with _ | _ | _ | _ <;> cases hhead
      exact hrest.symm
  | written condition =>
      cases condition <;> cases hhead
      · exact absurd hrest.symm (head_of_ending (by decide) hletters' _)
      · -- behind `LE` the ending would have to begin with `EQ`, but at most a suffix is left
        cases hletters' with
        | unwritten => rcases suffix' with _ | _ | _ | _ <;> cases hrest
        | written condition' =>
            cases condition' <;> rcases suffix with _ | _ | _ | _ <;> cases hrest

theorem Spells.base_eq_or (h : m.Spells letters word) (h' : other.Spells letters' word)
    (hbegins : m.base.text.toList <+: other.base.text.toList) :
    m.base = other.base ∨ folded word = "BL".toList := by
  have happend := h.word_eq.symm.trans h'.word_eq
  rcases BaseName.prefix_cases hbegins with heq | ⟨hbranch, hlink⟩ | ⟨c, hc, hlonger⟩
  · exact .inl heq
  · rw [hbranch, hlink] at happend
    have hrest := eq_nil_of_label h.condition h'.condition (List.cons.inj happend).2
    right
    rw [h'.word_eq, hlink, hrest]
    rfl
  · rw [hlonger, List.append_assoc, List.append_cancel_left_eq] at happend
    exact absurd happend (head_of_ending hc h.condition _)

/-- A word other than `BL` has one decomposition. -/
theorem Spells.unique (h : m.Spells letters word) (h' : other.Spells letters' word)
    (hword : folded word ≠ "BL".toList) : m = other ∧ letters = letters' := by
  have hbase : m.base = other.base := by
    have hbegins : m.base.text.toList <+: folded word := h.word_eq ▸ List.prefix_append _ _
    have hbegins' : other.base.text.toList <+: folded word := h'.word_eq ▸ List.prefix_append _ _
    -- two base names in front of one word: one of them begins with the other
    rcases List.prefix_or_prefix_of_prefix hbegins hbegins' with hle | hge
    · exact (h.base_eq_or h' hle).resolve_right hword
    · exact ((h'.base_eq_or h hge).resolve_right hword).symm
  obtain rfl := h.eq_of_base h' hbase
  have happend := h.word_eq.symm.trans h'.word_eq
  rw [List.append_cancel_left_eq, List.append_cancel_right_eq] at happend
  exact ⟨rfl, happend⟩

/-- **Words are taken apart exactly.** A word is read as a mnemonic just if this mnemonic spells
it and none with a longer base name does, and as none just if none spells it. A base name is cut
off between two characters, and what follows is read alike by bytes. Only `BL` has a second
decomposition, as `B` with the suffix of a label, and that is not the one that is meant. -/
theorem ofWord?_exact (word : String) :
    (∀ m, ofWord? word = some m ↔ (∃ letters, m.Spells letters word) ∧
        ∀ other letters, Spells other letters word →
          ¬ m.base.text.length < other.base.text.length) ∧
      (ofWord? word = none ↔ ∀ m letters, ¬ Spells m letters word) ∧
      (∀ base : BaseName, base.text.toList <+: folded word →
        ∃ rest, dropBytes (folded word) (byteLength base.text.toList) = some rest ∧
          withBase? (folded word) base =
            (endingInBytes? rest).map fun (condition, suffix) => ⟨base, condition, suffix⟩) ∧
      (folded word ≠ "BL".toList → ∀ m letters other letters', Spells m letters word →
        Spells other letters' word → m = other ∧ letters = letters') ∧
      (folded word = "BL".toList → ofWord? word = some ⟨.branchLink, .always, none⟩ ∧
        Spells ⟨.branch, .always, some .label⟩ [] word) := by
  refine ⟨fun m => ⟨fun h => ?_, ?_⟩, ⟨fun h m letters hspells => ?_, fun h => ?_⟩,
    fun base => withBase?_in_bytes,
    fun hword m letters other letters' h h' => h.unique h' hword, fun hword => ⟨?_, ?_⟩⟩
  · exact ⟨exists_spells_of_ofWord? h, fun other letters hother =>
      Nat.not_lt.mpr (length_le_of_ofWord? h hother)⟩
  -- what is found is no shorter than `m` and no longer, so the base names are the same
  · rintro ⟨⟨letters, hspells⟩, hlongest⟩
    obtain ⟨found, hfound⟩ := exists_ofWord? hspells
    obtain ⟨letters', hspells'⟩ := exists_spells_of_ofWord? hfound
    have hlength : m.base.text.length = found.base.text.length :=
      Nat.le_antisymm (length_le_of_ofWord? hfound hspells)
        (Nat.not_lt.mp (hlongest found letters' hspells'))
    rw [hfound, hspells.eq_of_base hspells' (hspells.base_eq_of_length hspells' hlength)]
  · obtain ⟨found, hfound⟩ := exists_ofWord? hspells
    rw [h] at hfound
    cases hfound
  · refine Option.eq_none_iff_forall_ne_some.mpr fun m hm => ?_
    obtain ⟨letters, hspells⟩ := exists_spells_of_ofWord? hm
    exact h m letters hspells
  · rw [ofWord?, hword]
    decide
  · exact ⟨.unwritten, hword⟩

/-- `BLE` is `B` under a condition and `BLEL` has a suffix besides; `BLLE` and `bleq` are `BL`. -/
example : ofWord? "BLE" = some ⟨.branch, .lessOrEqual, none⟩ ∧
    ofWord? "BLEL" = some ⟨.branch, .lessOrEqual, some .label⟩ ∧
    ofWord? "BLLE" = some ⟨.branchLink, .lessOrEqual, none⟩ ∧
    ofWord? "bleq" = some ⟨.branchLink, .equal, none⟩ := by decide

end Mnemonic

end ArmAssembly
