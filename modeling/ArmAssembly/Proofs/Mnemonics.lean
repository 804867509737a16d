import ArmAssembly.Mnemonic

set_option autoImplicit false

/-! # Instruction words are taken apart as they were put together

A base name, a condition and a suffix make a word. Another base name could be found in front of
the word only if one of the two begins with the other, and then the letters between them begin
no condition and are no suffix; only `B` and `BL` can be taken for each other. So all other words
are taken apart into the parts that they were made of (`Mnemonic.ofWord?_text`).
-/

namespace ArmAssembly

theorem folded_append (s t : String) : folded (s ++ t) = folded s ++ folded t := by
  rw [folded, String.toList_append, List.map_append]
  rfl

namespace BaseName

theorem mem_longestFirst (b : BaseName) : b ∈ longestFirst := by
  cases b <;> decide

theorem folded_text (b : BaseName) : folded b.text = b.text.toList := by
  cases b <;> decide

/-- Where one base name begins with another, there is only one letter more, unless the two are
`B` and `BL`. -/
theorem prefix_cases {b b' : BaseName} (h : b.text.toList <+: b'.text.toList) :
    b = b' ∨ (b = branch ∧ b' = branchLink) ∨
      ∃ c ∈ ['W', 'T', 'B'], b'.text.toList = b.text.toList ++ [c] := by
  have hall : ∀ b ∈ longestFirst, ∀ b' ∈ longestFirst,
      b.text.toList.isPrefixOf b'.text.toList = true → b = b' ∨ (b = branch ∧ b' = branchLink) ∨
        (['W', 'T', 'B'].any fun c => b'.text.toList = b.text.toList ++ [c]) = true := by decide
  have hcases := hall b (mem_longestFirst b) b' (mem_longestFirst b')
    (List.isPrefixOf_iff_prefix.mpr h)
  simpa only [List.any_eq_true, decide_eq_true_eq] using hcases

end BaseName

/-- The letter of a suffix. -/
def Suffix.letter : Suffix → String
  | immediate => "i"
  | register => "r"
  | label => "l"

namespace Mnemonic

/-- What follows the base name: the condition and the letter of the suffix, if there is one. -/
def endingText (condition : Condition) (suffix : Option Suffix) : String :=
  condition.text ++ (suffix.map Suffix.letter).getD ""

/-- The word that a mnemonic is taken from. -/
def text (m : Mnemonic) : String := m.base.text ++ endingText m.condition m.suffix

theorem ending?_endingText (condition : Condition) (suffix : Option Suffix) :
    ending? (folded (endingText condition suffix)) = some (condition, suffix) := by
  rcases suffix with _ | suffix
  · cases condition <;> decide
  · cases condition <;> cases suffix <;> decide

/-- No condition and no suffix goes on where one base name is longer than another. -/
theorem ending?_cons {c : Char} (hc : c ∈ ['W', 'T', 'B']) (condition : Condition)
    (suffix : Option Suffix) :
    ending? (c :: folded (endingText condition suffix)) = none ∧
      ¬[c] <+: folded (endingText condition suffix) := by
  have hall : (['W', 'T', 'B'].all fun c =>
      ending? (c :: folded (endingText condition suffix)) = none ∧
        [c].isPrefixOf (folded (endingText condition suffix)) = false) = true := by
    rcases suffix with _ | suffix
    · cases condition <;> decide
    · cases condition <;> cases suffix <;> decide
  obtain ⟨hending, hprefix⟩ := of_decide_eq_true (List.all_eq_true.mp hall c hc)
  refine ⟨hending, fun h => ?_⟩
  rw [List.isPrefixOf_iff_prefix.mpr h] at hprefix
  cases hprefix

theorem withBase?_append (base : BaseName) (letters : List Char) :
    withBase? (base.text.toList ++ letters) base =
      (ending? letters).map fun (condition, suffix) => ⟨base, condition, suffix⟩ := by
  have hprefix : base.text.toList.isPrefixOf (base.text.toList ++ letters) = true :=
    List.isPrefixOf_iff_prefix.mpr (List.prefix_append _ _)
  rw [withBase?, if_pos hprefix, ← String.length_toList, List.drop_left]

/-- A word is not taken apart at any base name but its own. -/
theorem withBase?_eq_none {m : Mnemonic} {b : BaseName} (hne : b ≠ m.base)
    (hbranch : m.base ≠ .branch) (hlink : m.base ≠ .branchLink) :
    withBase? (m.base.text.toList ++ folded (endingText m.condition m.suffix)) b = none := by
  by_cases hprefix : b.text.toList <+:
      m.base.text.toList ++ folded (endingText m.condition m.suffix)
  -- two base names in front of one word: one of them begins with the other
  · rcases List.prefix_or_prefix_of_prefix hprefix (List.prefix_append _ _) with hshort | hlong
    · rcases BaseName.prefix_cases hshort with heq | ⟨-, heq⟩ | ⟨c, hc, hlonger⟩
      · exact absurd heq hne
      · exact absurd heq hlink
      · rw [hlonger, List.append_assoc, List.singleton_append, withBase?_append,
          (ending?_cons hc _ _).1]
        rfl
    · rcases BaseName.prefix_cases hlong with heq | ⟨heq, -⟩ | ⟨c, hc, hlonger⟩
      · exact absurd heq.symm hne
      · exact absurd heq hbranch
      · rw [hlonger, List.prefix_append_right_inj] at hprefix
        exact absurd hprefix (ending?_cons hc _ _).2
  · rw [withBase?, if_neg (by rwa [List.isPrefixOf_iff_prefix])]

/-- A word is taken apart into the parts that it was made of. -/
theorem ofWord?_text {m : Mnemonic} (hbranch : m.base ≠ .branch) (hlink : m.base ≠ .branchLink) :
    ofWord? m.text = some m := by
  have hfolded : folded m.text =
      m.base.text.toList ++ folded (endingText m.condition m.suffix) := by
    rw [text, folded_append, BaseName.folded_text]
  have hown : withBase? (folded m.text) m.base = some m := by
    rw [hfolded, withBase?_append, ending?_endingText]
    rfl
  unfold ofWord?
  cases hfound : BaseName.longestFirst.findSome? (withBase? (folded m.text)) with
  | none =>
      have hnone := List.findSome?_eq_none_iff.mp hfound m.base (BaseName.mem_longestFirst _)
      rw [hown] at hnone
      cases hnone
  | some found =>
      obtain ⟨b, -, hb⟩ := List.exists_of_findSome?_eq_some hfound
      by_cases hbase : b = m.base
      · rw [hbase, hown] at hb
        exact hb.symm
      · rw [hfolded, withBase?_eq_none hbase hbranch hlink] at hb
        cases hb

end Mnemonic

end ArmAssembly
