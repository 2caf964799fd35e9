import Mathlib.Algebra.Order.Ring.Nat

/-! # Rounding Up to an Alignment

    `(n + a - 1) & ~(a - 1)` on 64-bit integers, for powers of two `a`.

    * `toNat_align`: the sum is reduced modulo 2^64, and its remainder cut off.
    * `align_le_iff`: if the sum does not wrap, the result is the next multiple. -/

namespace Alignment

/-- Clearing the bits of a mask and keeping them are the two parts of a word. -/
theorem toNat_clear_add_keep {n : Nat} (x mask : BitVec n) :
    (x &&& ~~~mask).toNat + (x &&& mask).toNat = x.toNat := by
  have hnone : (x &&& ~~~mask) &&& (x &&& mask) = 0#n := by
    rw [BitVec.and_comm x mask, BitVec.and_assoc, ← BitVec.and_assoc (~~~mask), BitVec.not_and_self]
    simp
  calc (x &&& ~~~mask).toNat + (x &&& mask).toNat
      = (x &&& ~~~mask ||| x &&& mask).toNat := by
        rw [← BitVec.add_eq_or_of_and_eq_zero _ _ hnone, BitVec.toNat_add_of_and_eq_zero hnone]
    _ = x.toNat := by rw [← BitVec.and_or_distrib_left, BitVec.not_or_self, BitVec.and_allOnes]

variable {n a : UInt64} {k : Nat}

theorem toNat_sub_one (ha : 0 < a.toNat) : (a - 1).toNat = a.toNat - 1 := by
  have hle : (1 : UInt64) ≤ a := UInt64.le_iff_toNat_le.mpr ha
  exact UInt64.toNat_sub_of_le _ _ hle

/-- The sum may be 2^64, since one is subtracted again. -/
theorem toNat_add_sub_one (ha : 0 < a.toNat) : (n + a - 1).toNat = (n.toNat + (a.toNat - 1)) % 2 ^ 64 := by
  have hassoc : n + a - 1 = n + (a - 1) := by
    rw [UInt64.sub_eq_add_neg, UInt64.add_assoc, ← UInt64.sub_eq_add_neg]
  rw [hassoc, UInt64.toNat_add, toNat_sub_one ha]

theorem toNat_align (ha : a.toNat = 2 ^ k) :
    ((n + a - 1) &&& ~~~(a - 1)).toNat = (n.toNat + (2 ^ k - 1)) % 2 ^ 64 / 2 ^ k * 2 ^ k := by
  have hpos : 0 < a.toNat := by
    rw [ha]
    exact Nat.two_pow_pos k
  have hparts : ((n + a - 1) &&& ~~~(a - 1)).toNat + ((n + a - 1) &&& (a - 1)).toNat = (n + a - 1).toNat :=
    toNat_clear_add_keep _ _
  have hlow : ((n + a - 1) &&& (a - 1)).toNat = (n + a - 1).toNat % 2 ^ k := by
    rw [UInt64.toNat_and, toNat_sub_one hpos, ha, Nat.and_two_pow_sub_one_eq_mod]
  rw [← ha, ← toNat_add_sub_one hpos, ha, Nat.div_mul_self_eq_mod_sub_self, ← hlow, ← hparts, Nat.add_sub_cancel_right]

theorem dvd_align (ha : a.toNat = 2 ^ k) : a.toNat ∣ ((n + a - 1) &&& ~~~(a - 1)).toNat := by
  rw [toNat_align ha, ha]
  exact Nat.dvd_mul_left ..

/-- Without a wrap, the multiples of the alignment that are large enough are those
    from the result on. -/
theorem align_le_iff (ha : a.toNat = 2 ^ k) (hn : n.toNat + a.toNat ≤ 2 ^ 64) {c : Nat} (hc : a.toNat ∣ c) :
    ((n + a - 1) &&& ~~~(a - 1)).toNat ≤ c ↔ n.toNat ≤ c := by
  obtain ⟨m, rfl⟩ := hc
  have hpos : 0 < 2 ^ k := Nat.two_pow_pos k
  rw [ha] at hn
  rw [toNat_align ha, ha, Nat.mod_eq_of_lt (by omega), Nat.mul_comm (2 ^ k) m, Nat.mul_le_mul_right_iff hpos,
    ← Nat.lt_succ_iff, Nat.div_lt_iff_lt_mul hpos, Nat.succ_mul]
  omega

/-- A multiple of the alignment that is a 64-bit integer is an alignment below 2^64. -/
theorem add_le_of_dvd (ha : a.toNat = 2 ^ k) (hk : k < 64) (hn : a.toNat ∣ n.toNat) : n.toNat + a.toNat ≤ 2 ^ 64 := by
  rw [ha] at hn ⊢
  apply Nat.le_of_lt_add_of_dvd (n := 2 ^ k)
  · exact Nat.add_lt_add_right n.toNat_lt _
  · exact Nat.dvd_add hn (Nat.dvd_refl _)
  · exact Nat.pow_dvd_pow 2 (Nat.le_of_lt hk)

end Alignment
