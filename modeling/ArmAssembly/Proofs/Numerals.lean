import ArmAssembly.Text.Numeral

set_option autoImplicit false

/-! # Numerals are read as they were written

Writing splits off the last digit and reading adds it again, so a number survives the round
trip in every base up to sixteen, in letters of either case.
-/

namespace ArmAssembly

theorem numeralValue_append (base : Nat) (digits : List Char) (digit : Char) :
    numeralValue base (digits ++ [digit]) = base * numeralValue base digits + digitValue digit := by
  rw [numeralValue, List.foldl_append]
  rfl

theorem digitValue_digitChar {n : Nat} (hn : n < 16) : digitValue n.digitChar.toUpper = n := by
  have hall : ∀ k : Fin 16, digitValue k.val.digitChar.toUpper = k.val := by decide
  exact hall ⟨n, hn⟩

theorem isHexDigit_digitChar {n : Nat} (hn : n < 16) : isHexDigit n.digitChar.toUpper = true := by
  have hall : ∀ k : Fin 16, isHexDigit k.val.digitChar.toUpper = true := by decide
  exact hall ⟨n, hn⟩

/-- A numeral is the numeral of all but its last digit, and that digit. -/
theorem toDigits_last {base n : Nat} (hbase : 1 < base) (hn : base ≤ n) :
    Nat.toDigits base n = Nat.toDigits base (n / base) ++ [(n % base).digitChar] := by
  rw [Nat.toDigits_eq_if hbase, if_neg (by omega)]

theorem numeralValue_toDigits {base : Nat} (hbase : 1 < base) (hle : base ≤ 16) (n : Nat) :
    numeralValue base ((Nat.toDigits base n).map Char.toUpper) = n := by
  induction n using Nat.strongRecOn with
  | ind n ih =>
      by_cases hn : n < base
      · rw [Nat.toDigits_of_lt_base hn]
        simp [numeralValue, digitValue_digitChar (show n < 16 by omega)]
      · have hlast : n % base < base := Nat.mod_lt _ (by omega)
        rw [toDigits_last hbase (by omega), List.map_append, List.map_singleton,
          numeralValue_append, ih (n / base) (Nat.div_lt_self (by omega) hbase),
          digitValue_digitChar (by omega)]
        exact Nat.div_add_mod n base

/-- What holds of the digits below a base holds of all characters of a numeral. -/
theorem forall_mem_toDigits {P : Char → Prop} {base : Nat} (hbase : 1 < base)
    (hP : ∀ k < base, P k.digitChar) (n : Nat) : ∀ c ∈ Nat.toDigits base n, P c := by
  induction n using Nat.strongRecOn with
  | ind n ih =>
      by_cases hn : n < base
      · rw [Nat.toDigits_of_lt_base hn]
        exact List.forall_mem_singleton.mpr (hP n hn)
      · rw [toDigits_last hbase (by omega)]
        exact List.forall_mem_append.mpr ⟨ih (n / base) (Nat.div_lt_self (by omega) hbase),
          List.forall_mem_singleton.mpr (hP _ (Nat.mod_lt _ (by omega)))⟩

theorem isHexDigit_toDigits {base : Nat} (hbase : 1 < base) (hle : base ≤ 16) (n : Nat) :
    ((Nat.toDigits base n).map Char.toUpper).all isHexDigit = true := by
  rw [List.all_map, List.all_eq_true]
  exact forall_mem_toDigits hbase (fun k hk => isHexDigit_digitChar (by omega)) n

/-- A number is read from base sixteen as it was written. -/
theorem numeralValue_upperHex (n : Nat) : numeralValue 16 (upperHex n).toList = n := by
  rw [upperHex, String.toList_ofList]
  exact numeralValue_toDigits (by omega) (by omega) n

theorem isHexDigit_upperHex (n : Nat) : (upperHex n).toList.all isHexDigit = true := by
  rw [upperHex, String.toList_ofList]
  exact isHexDigit_toDigits (by omega) (by omega) n

theorem upperHex_ne_nil (n : Nat) : (upperHex n).toList ≠ [] := by
  rw [upperHex, String.toList_ofList]
  simp [Nat.toDigits_ne_nil]

/-! ## Numerals with a fixed number of digits -/

/-- `c` is a hexadecimal digit, and no small letter. -/
def isCapitalHexDigit (c : Char) : Bool := c.isDigit || ('A' ≤ c && c ≤ 'F')

theorem numeralValue_leftpad (base width : Nat) (digits : List Char) :
    numeralValue base (digits.leftpad width '0') = numeralValue base digits := by
  have hzeros (k : Nat) : numeralValue base (List.replicate k '0' ++ digits)
      = numeralValue base digits := by
    induction k with
    | zero => rfl
    | succ k ih =>
        have hzero : base * 0 + digitValue '0' = 0 := Nat.mul_zero base
        rw [← ih, numeralValue, List.replicate_succ, List.cons_append, List.foldl_cons, hzero]
        rfl
  exact hzeros _

theorem isCapitalHexDigit_upperHex (n : Nat) :
    (upperHex n).toList.all isCapitalHexDigit = true := by
  have hall : ∀ k : Fin 16, isCapitalHexDigit k.val.digitChar.toUpper = true := by decide
  rw [upperHex, String.toList_ofList, List.all_map, List.all_eq_true]
  exact forall_mem_toDigits (by decide) (fun k hk => hall ⟨k, hk⟩) n

end ArmAssembly
