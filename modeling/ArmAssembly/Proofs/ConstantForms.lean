import ArmAssembly.Proofs.RotatedBytes
import ArmAssembly.Proofs.WordInjective

set_option autoImplicit false

/-! # One form for each constant

Some constants are a byte turned in several ways: zero in all sixteen, a small byte in up to
four. The search goes up from rotation zero, so of all forms of a constant it finds the one with
the smallest rotation, and every constant has at most one form that is found
(`RotatedByte.ofConstant?_canonical`).
-/

namespace ArmAssembly

namespace RotatedByte

variable {n : BitVec 32} {b other : RotatedByte}

/-- A form is known by its constant and its rotation. -/
theorem eq_of_rotation (hconstant : b.constant = other.constant)
    (hrotation : b.rotation.toNat = other.rotation.toNat) : b = other := by
  have hr : other.rotation.toNat < 16 := other.rotation.isLt
  have hb := (withRotation?_eq_some_iff hr).mpr ⟨hrotation, hconstant⟩
  have hother := (withRotation?_eq_some_iff hr).mpr ⟨rfl, rfl⟩
  rw [hb] at hother
  exact Option.some.inj hother

/-- No form of the constant has a smaller rotation than the one that is found. -/
theorem rotation_le_of_ofConstant? (h : ofConstant? n = some b) (hother : other.constant = n) :
    b.rotation.toNat ≤ other.rotation.toNat := by
  have hr : other.rotation.toNat < 16 := other.rotation.isLt
  obtain ⟨smaller, r, larger, hrange, hfound, hnone⟩ := List.findSome?_eq_some_iff.mp h
  have hmem : other.rotation.toNat ∈ List.range 16 := List.mem_range.mpr hr
  have hsorted : (List.range 16).Pairwise (· < ·) := List.pairwise_lt_range
  have hlast : r ∈ List.range 16 := by simp [hrange]
  rw [hrange] at hmem hsorted
  obtain ⟨rfl, -⟩ := (withRotation?_eq_some_iff (List.mem_range.mp hlast)).mp hfound
  rcases List.mem_append.mp hmem with hsmaller | hbehind
  · -- the search has passed this rotation without finding a form
    have hform := (withRotation?_eq_some_iff hr).mpr ⟨rfl, hother⟩
    rw [hnone _ hsmaller] at hform
    cases hform
  · rcases List.mem_cons.mp hbehind with heq | hlarger
    · exact Nat.le_of_eq heq.symm
    · exact Nat.le_of_lt
        ((List.pairwise_cons.mp (List.pairwise_append.mp hsorted).2.1).1 _ hlarger)

/-- **The search is a minimum**: what is found is the form with the smallest rotation. -/
theorem ofConstant?_eq_some_iff :
    ofConstant? n = some b ↔ b.constant = n ∧
      ∀ other : RotatedByte, other.constant = n → b.rotation.toNat ≤ other.rotation.toNat := by
  constructor
  · exact fun h => ⟨constant_of_ofConstant? h, fun _ => rotation_le_of_ofConstant? h⟩
  · rintro ⟨hconstant, hsmallest⟩
    obtain ⟨found, hfound⟩ := Option.isSome_iff_exists.mp (isSome_ofConstant?.mpr ⟨b, hconstant⟩)
    have hsame := constant_of_ofConstant? hfound
    have hrotation := Nat.le_antisymm (hsmallest found hsame)
      (rotation_le_of_ofConstant? hfound hconstant)
    rw [hfound, eq_of_rotation (hconstant.trans hsame.symm) hrotation]

/-- The rotation stands above the byte. -/
theorem toNat_field (b : RotatedByte) : b.field.toNat = b.rotation.toNat * 256 + b.byte.toNat := by
  have hbyte : b.byte.toNat < 2 ^ 8 := b.byte.isLt
  rw [field, BitVec.toNat_append, Nat.shiftLeft_eq, Nat.mul_comm,
    ← Nat.two_pow_add_eq_or_of_lt hbyte]

/-- A byte turned right by an even distance is the constant of a form. -/
theorem exists_form_iff {r : Nat} :
    (∃ b : RotatedByte, b.constant = n ∧ b.rotation.toNat = r) ↔
      r < 16 ∧ ∃ byte : BitVec 8, n = (byte.setWidth 32).rotateRight (2 * r) := by
  constructor
  · rintro ⟨b, rfl, rfl⟩
    exact ⟨b.rotation.isLt, b.byte, rfl⟩
  · rintro ⟨hr, byte, rfl⟩
    have htoNat : (BitVec.ofNat 4 r).toNat = r := by
      rw [BitVec.toNat_ofNat]
      exact Nat.mod_eq_of_lt hr
    refine ⟨⟨BitVec.ofNat 4 r, byte⟩, ?_, htoNat⟩
    rw [constant, htoNat]

/-- **Forms are complete, exact and canonical.** A constant has a form just if it is some byte
turned right by twice some `r` below 16. The form that is found stands for the constant, has the
smallest such `r` for its rotation, and takes up twelve bits as `r * 256` and the byte. Forms that
are found have the same field just if they are the same, and stand for the same constant just if
they are the same; looking for the constant of one finds it again. -/
theorem ofConstant?_canonical (n : BitVec 32) :
    ((ofConstant? n).isSome = true ↔
        ∃ (byte : BitVec 8) (r : Nat), r < 16 ∧ n = (byte.setWidth 32).rotateRight (2 * r)) ∧
      ∀ b, ofConstant? n = some b →
        b.constant = n ∧
        (∀ (byte : BitVec 8) (r : Nat), r < 16 → n = (byte.setWidth 32).rotateRight (2 * r) →
          b.rotation.toNat ≤ r) ∧
        b.field.toNat = b.rotation.toNat * 256 + b.byte.toNat ∧
        ofConstant? b.constant = some b ∧
        ∀ n' b', ofConstant? n' = some b' →
          (b.field = b'.field ↔ b = b') ∧ (b.constant = b'.constant ↔ b = b') := by
  refine ⟨?_, fun b h => ?_⟩
  · rw [isSome_ofConstant?]
    constructor
    · rintro ⟨b, hb⟩
      obtain ⟨hr, byte, hbyte⟩ := exists_form_iff.mp ⟨b, hb, rfl⟩
      exact ⟨byte, _, hr, hbyte⟩
    · rintro ⟨byte, r, hr, hbyte⟩
      obtain ⟨b, hb, -⟩ := exists_form_iff.mpr ⟨hr, byte, hbyte⟩
      exact ⟨b, hb⟩
  · obtain ⟨hconstant, hsmallest⟩ := ofConstant?_eq_some_iff.mp h
    refine ⟨hconstant, fun byte r hr hbyte => ?_, b.toNat_field, hconstant ▸ h,
      fun n' b' h' => ⟨field_inj, fun hsame => ?_, congrArg constant⟩⟩
    · obtain ⟨other, hother, rfl⟩ := exists_form_iff.mpr ⟨hr, byte, hbyte⟩
      exact hsmallest other hother
    · have hn : n = n' := by rw [← hconstant, hsame, constant_of_ofConstant? h']
      rw [hn, h'] at h
      exact (Option.some.inj h).symm

/-- The four ones at both ends of a word are a byte that was turned by four. -/
example : (ofConstant? 0xF000000F).map (fun b => (b.rotation, b.byte)) = some (2, 0xFF) ∧
    ofConstant? 0x1FE = none := by decide

end RotatedByte

end ArmAssembly
