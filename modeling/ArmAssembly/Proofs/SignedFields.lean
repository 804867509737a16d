import ArmAssembly.Proofs.TwoPass

set_option autoImplicit false

/-! # Signed fields

A branch has a field of 24 bits for the distance to its label, in two's complement. Every distance
that the field can hold is put into it and read back unchanged, and every other is refused for the
side on which it is out of range (`Field.ofSigned_eq_ok_iff`). Addresses wrap around, and so does
the processor when it adds the field to the place it counts from. So a branch that is accepted goes
to its label wherever the two lie (`signed_fields_exact`).
-/

namespace ArmAssembly

namespace Field

/-! ## Distances and fields -/

theorem ofSigned_eq_tooSmall_iff (n : Int) : ofSigned n = .error .tooSmall ↔ n < -2 ^ 23 := by
  unfold ofSigned
  split
  · next hlow => exact iff_of_true rfl hlow
  · next hlow =>
      refine iff_of_false ?_ hlow
      split <;> simp

theorem ofSigned_eq_tooLarge_iff (n : Int) : ofSigned n = .error .tooLarge ↔ 2 ^ 23 ≤ n := by
  unfold ofSigned
  split
  · next hlow => exact iff_of_false (by simp) (by omega)
  · split
    · next hhigh => exact iff_of_true rfl hhigh
    · next hhigh => exact iff_of_false (by simp) hhigh

theorem toInt_bounds (f : BitVec 24) : -2 ^ 23 ≤ f.toInt ∧ f.toInt < 2 ^ 23 :=
  ⟨f.le_toInt, f.toInt_lt⟩

/-- **A field holds a distance just if it is read back as this distance.** -/
theorem ofSigned_eq_ok_iff (n : Int) (f : BitVec 24) : ofSigned n = .ok f ↔ f.toInt = n := by
  constructor
  · intro h
    have hlow : ¬ n < -2 ^ 23 := fun hn => by
      rw [(ofSigned_eq_tooSmall_iff n).mpr hn] at h
      cases h
    have hhigh : ¬ 2 ^ 23 ≤ n := fun hn => by
      rw [(ofSigned_eq_tooLarge_iff n).mpr hn] at h
      cases h
    have hreaches : Item.BranchReaches n := ⟨by omega, by omega⟩
    rw [(Placement.ofSigned_eq n).1 hreaches] at h
    cases h
    exact toInt_ofInt_of_branchReaches hreaches
  · rintro rfl
    rw [(Placement.ofSigned_eq f.toInt).1 (toInt_bounds f), BitVec.ofInt_toInt]

/-- The sign of a field is its top bit. -/
theorem toInt_eq (f : BitVec 24) :
    f.toInt = if 2 ^ 23 ≤ f.toNat then (f.toNat : Int) - 2 ^ 24 else (f.toNat : Int) := by
  rw [BitVec.toInt_eq_toNat_cond]
  split <;> split <;> omega

/-- A field is what its distance leaves modulo 2 ^ 24. -/
theorem toNat_modEq (f : BitVec 24) : (f.toNat : Int) ≡ f.toInt [ZMOD 2 ^ 24] := by
  rw [BitVec.toInt_eq_toNat_bmod]
  exact (Int.bmod_emod (x := f.toNat) (m := 2 ^ 24)).symm

/-- The field of a machine integer is its lowest 24 bits. -/
theorem toNat_of_ofSigned {n : Int64} {f : BitVec 24} (h : ofSigned n.toInt = .ok f) :
    f.toNat = (n.toUInt64 &&& 0xFFFFFF).toUInt32.toNat := by
  have hmask : n.toUInt64.toNat &&& 2 ^ 24 - 1 = n.toUInt64.toNat % 2 ^ 24 :=
    Nat.and_two_pow_sub_one_eq_mod _ _
  have hlow : (n.toUInt64 &&& 0xFFFFFF).toUInt32.toNat = n.toUInt64.toNat % 2 ^ 24 := by
    rw [UInt64.toNat_toUInt32, UInt64.toNat_and]
    exact (congrArg (· % 2 ^ 32) hmask).trans (by omega)
  have hfield : (f.toNat : Int) % 2 ^ 24 = n.toInt % 2 ^ 24 := by
    rw [← (ofSigned_eq_ok_iff _ _).mp h]
    exact toNat_modEq f
  have hword : (n.toUInt64.toNat : Int) % 2 ^ 64 = n.toInt % 2 ^ 64 := by
    rw [← Int64.toInt_toBitVec, BitVec.toInt_eq_toNat_bmod]
    exact (Int.bmod_emod (x := n.toBitVec.toNat) (m := 2 ^ 64)).symm
  have hf : f.toNat < 2 ^ 24 := f.isLt
  rw [hlow]
  omega

end Field

/-! ## Addresses

A distance is taken between two numbers of 32 bits, without a wrap, and the processor adds it modulo
2 ^ 32. Adding a distance to its origin leads to where it was taken to, either way. -/

/-- The distance between two addresses leads from the one to the other, also where counting wraps
around. -/
theorem Address.advance_distanceFrom (a origin : Address) :
    origin.advance (a.distanceFrom origin % 2 ^ 32).toNat = a := by
  have ha : a.word.toNat < 2 ^ 32 := a.word.isLt
  have horigin : origin.word.toNat < 2 ^ 32 := origin.word.isLt
  unfold advance distanceFrom Address.toNat
  refine congrArg Address.mk (BitVec.eq_of_toNat_eq ?_)
  rw [BitVec.toNat_add, BitVec.toNat_ofNat]
  omega

/-- A branch is accepted with the field for the distance to its label. -/
theorem Placement.exists_of_branchField {symbols : Symbols} {here : Address}
    {name : Located String} {f : BitVec 24}
    (h : branchField symbols here (.label name) = .ok f) :
    ∃ d, symbols.address? name.value = some d ∧
      Field.ofSigned (d.distanceFrom (here.advance 2)) = .ok f := by
  cases hname : symbols.address? name.value with
  | none =>
      simp only [branchField, resolve, hname] at h
      cases h
  | some d =>
      refine ⟨d, rfl, ?_⟩
      simp only [branchField, resolve, hname, bind, Except.bind] at h
      cases hfield : Field.ofSigned (d.distanceFrom (here.advance 2)) with
      | error e =>
          rw [hfield] at h
          cases h
      | ok g =>
          rw [hfield] at h
          cases h
          rfl

/-- **Two's complement of 24 bits is exact both ways.** A distance is refused just for the side on
which it is out of range; any other is put into a field that is congruent to it and gives it back,
and for a machine integer this field is its lowest 24 bits. Every field stands for a distance within
the range, and comes from it. The processor counts from two addresses behind a branch: from there
the field of an accepted distance leads to the label, modulo 2 ^ 32. -/
theorem signed_fields_exact :
    (∀ n : Int, (Field.ofSigned n = .error .tooSmall ↔ n < -2 ^ 23) ∧
      (Field.ofSigned n = .error .tooLarge ↔ 2 ^ 23 ≤ n) ∧
      (-2 ^ 23 ≤ n → n < 2 ^ 23 → ∃ f, Field.ofSigned n = .ok f ∧ f.toNat < 2 ^ 24 ∧
        (f.toNat : Int) ≡ n [ZMOD 2 ^ 24] ∧ f.toInt = n)) ∧
    (∀ (n : Int64) (f : BitVec 24), Field.ofSigned n.toInt = .ok f →
      f.toNat = (n.toUInt64 &&& 0xFFFFFF).toUInt32.toNat) ∧
    (∀ f : BitVec 24, -2 ^ 23 ≤ f.toInt ∧ f.toInt < 2 ^ 23 ∧
      f.toInt = (if 2 ^ 23 ≤ f.toNat then (f.toNat : Int) - 2 ^ 24 else (f.toNat : Int)) ∧
      Field.ofSigned f.toInt = .ok f) ∧
    (∀ (a d : Address) (f : BitVec 24),
      Field.ofSigned (d.distanceFrom (a.advance 2)) = .ok f →
        (a.advance 2).advance (f.toInt % 2 ^ 32).toNat = d) ∧
    ∀ (symbols : Symbols) (here : Address) (name : Located String) (f : BitVec 24),
      Placement.branchField symbols here (.label name) = .ok f →
        symbols.address? name.value = some ((here.advance 2).advance (f.toInt % 2 ^ 32).toNat) := by
  have hlands (a d : Address) (f : BitVec 24)
      (h : Field.ofSigned (d.distanceFrom (a.advance 2)) = .ok f) :
      (a.advance 2).advance (f.toInt % 2 ^ 32).toNat = d := by
    rw [(Field.ofSigned_eq_ok_iff _ _).mp h]
    exact d.advance_distanceFrom (a.advance 2)
  refine ⟨fun n => ⟨Field.ofSigned_eq_tooSmall_iff n, Field.ofSigned_eq_tooLarge_iff n, ?_⟩,
    fun n f h => Field.toNat_of_ofSigned h, fun f => ?_, hlands, ?_⟩
  · intro hlow hhigh
    have hread : (BitVec.ofInt 24 n).toInt = n := toInt_ofInt_of_branchReaches ⟨hlow, hhigh⟩
    refine ⟨.ofInt 24 n, (Field.ofSigned_eq_ok_iff _ _).mpr hread, BitVec.isLt _, ?_, hread⟩
    have hcongruent := Field.toNat_modEq (.ofInt 24 n)
    rwa [hread] at hcongruent
  · obtain ⟨hlow, hhigh⟩ := Field.toInt_bounds f
    exact ⟨hlow, hhigh, Field.toInt_eq f, (Field.ofSigned_eq_ok_iff _ _).mpr rfl⟩
  · intro symbols here name f h
    obtain ⟨d, hd, hfield⟩ := Placement.exists_of_branchField h
    rw [hd, hlands here d f hfield]

theorem signed_fields_exact_wrapping :
    Field.ofSigned ((Address.mk 0).distanceFrom ((Address.mk 0xFFFFFFFF).advance 2)) =
        .ok 0xFFFFFF ∧
      ((Address.mk 0xFFFFFFFF).advance 2).advance
        ((0xFFFFFF : BitVec 24).toInt % 2 ^ 32).toNat = Address.mk 0 := by
  have hfield : Field.ofSigned ((Address.mk 0).distanceFrom ((Address.mk 0xFFFFFFFF).advance 2)) =
      .ok 0xFFFFFF := by decide
  exact ⟨hfield, signed_fields_exact.2.2.2.1 _ _ _ hfield⟩

end ArmAssembly
