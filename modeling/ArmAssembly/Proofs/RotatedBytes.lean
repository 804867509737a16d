import ArmAssembly.Machine.RotatedByte

set_option autoImplicit false

/-! # The constants that have a rotated form

Turning a word to the left undoes turning it to the right. So the search of
`RotatedByte.ofConstant?` finds a form just when there is one (`RotatedByte.isSome_ofConstant?`),
and the form that it finds stands for the constant (`RotatedByte.constant_of_ofConstant?`).
-/

namespace ArmAssembly

namespace RotatedByte

theorem rotateRight_rotateLeft {w : Nat} (n : BitVec w) (k : Nat) :
    (n.rotateLeft k).rotateRight k = n := by
  refine BitVec.eq_of_getLsbD_eq fun i hi => ?_
  have hk : k % w < w := Nat.mod_lt _ (by omega)
  -- the lowest `k % w` bits of the turned word are the highest of the word
  by_cases hlow : i < w - k % w
  · have hbit : ¬k % w + i < k % w := by omega
    have hin : k % w + i < w := by omega
    rw [BitVec.getLsbD_rotateRight, decide_eq_true hlow, cond_true, BitVec.getLsbD_rotateLeft,
      decide_eq_false hbit, cond_false, decide_eq_true hin, Bool.true_and,
      Nat.add_sub_cancel_left]
  · have hbit : i - (w - k % w) < k % w := by omega
    have hback : w - k % w + (i - (w - k % w)) = i := by omega
    rw [BitVec.getLsbD_rotateRight, decide_eq_false hlow, cond_false, decide_eq_true hi,
      Bool.true_and, BitVec.getLsbD_rotateLeft, decide_eq_true hbit, cond_true, hback]

theorem rotateLeft_rotateRight {w : Nat} (n : BitVec w) (k : Nat) :
    (n.rotateRight k).rotateLeft k = n := by
  refine BitVec.eq_of_getLsbD_eq fun i hi => ?_
  have hk : k % w < w := Nat.mod_lt _ (by omega)
  by_cases hlow : i < k % w
  · have hbit : ¬w - k % w + i < w - k % w := by omega
    have hin : w - k % w + i < w := by omega
    rw [BitVec.getLsbD_rotateLeft, decide_eq_true hlow, cond_true, BitVec.getLsbD_rotateRight,
      decide_eq_false hbit, cond_false, decide_eq_true hin, Bool.true_and,
      Nat.add_sub_cancel_left]
  · have hbit : i - k % w < w - k % w := by omega
    have hback : k % w + (i - k % w) = i := by omega
    rw [BitVec.getLsbD_rotateLeft, decide_eq_false hlow, cond_false, decide_eq_true hi,
      Bool.true_and, BitVec.getLsbD_rotateRight, decide_eq_true hbit, cond_true, hback]

/-- A form with rotation `r` is found just for the constants that are some byte, turned. -/
theorem withRotation?_eq_some_iff {n : BitVec 32} {r : Nat} {b : RotatedByte} (hr : r < 16) :
    withRotation? n r = some b ↔ b.rotation.toNat = r ∧ b.constant = n := by
  have htoNat : (BitVec.ofNat 4 r).toNat = r := by
    rw [BitVec.toNat_ofNat]
    exact Nat.mod_eq_of_lt hr
  constructor
  · intro h
    simp only [withRotation?, Option.ite_none_right_eq_some, Option.some.injEq] at h
    obtain ⟨hbyte, rfl⟩ := h
    refine ⟨htoNat, ?_⟩
    have hwidth : ((n.rotateLeft (2 * r)).setWidth 8).setWidth 32 = n.rotateLeft (2 * r) := by
      refine BitVec.eq_of_toNat_eq ?_
      rw [BitVec.toNat_setWidth, BitVec.toNat_setWidth, Nat.mod_eq_of_lt hbyte]
      exact Nat.mod_eq_of_lt (by omega)
    show (((n.rotateLeft (2 * r)).setWidth 8).setWidth 32).rotateRight
      (2 * (BitVec.ofNat 4 r).toNat) = n
    rw [hwidth, htoNat, rotateRight_rotateLeft]
  -- turned back, the constant is the byte again and passes the check
  · rintro ⟨rfl, rfl⟩
    have hturned : b.constant.rotateLeft (2 * b.rotation.toNat) = b.byte.setWidth 32 :=
      rotateLeft_rotateRight _ _
    have hbyte : (b.byte.setWidth 32).toNat = b.byte.toNat := by
      rw [BitVec.toNat_setWidth]
      exact Nat.mod_eq_of_lt (by omega)
    have hback : (b.byte.setWidth 32).setWidth 8 = b.byte := by
      refine BitVec.eq_of_toNat_eq ?_
      rw [BitVec.toNat_setWidth, hbyte, Nat.mod_eq_of_lt b.byte.isLt]
    unfold withRotation?
    simp only [hturned, hbyte, hback, BitVec.ofNat_toNat, BitVec.setWidth_eq]
    exact if_pos b.byte.isLt

theorem ofConstant?_eq_some {n : BitVec 32} {b : RotatedByte} (h : ofConstant? n = some b) :
    ∃ r < 16, withRotation? n r = some b := by
  obtain ⟨r, hr, hb⟩ := List.exists_of_findSome?_eq_some h
  exact ⟨r, List.mem_range.mp hr, hb⟩

/-- The form that is found stands for the constant. -/
theorem constant_of_ofConstant? {n : BitVec 32} {b : RotatedByte} (h : ofConstant? n = some b) :
    b.constant = n := by
  obtain ⟨r, hr, hb⟩ := ofConstant?_eq_some h
  exact ((withRotation?_eq_some_iff hr).mp hb).2

/-- A form is found for every constant that has one. -/
theorem isSome_ofConstant? {n : BitVec 32} :
    (ofConstant? n).isSome = true ↔ ∃ b : RotatedByte, b.constant = n := by
  constructor
  · intro h
    obtain ⟨b, hb⟩ := Option.isSome_iff_exists.mp h
    exact ⟨b, constant_of_ofConstant? hb⟩
  · rintro ⟨b, hb⟩
    have hr : b.rotation.toNat < 16 := b.rotation.isLt
    refine List.findSome?_isSome_iff.mpr ⟨b.rotation.toNat, List.mem_range.mpr hr, ?_⟩
    rw [(withRotation?_eq_some_iff hr).mpr ⟨rfl, hb⟩]
    rfl

end RotatedByte

end ArmAssembly
