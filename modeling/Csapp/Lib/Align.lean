import Mathlib.Algebra.Ring.Nat
import Mathlib.Algebra.Order.Group.Nat

/-!
# Lib.Align — rounding up to a power of two

`alignUp a x` is the least multiple of `a` from `x` on.  On words of `w` bits it is computed with a mask,
`(x + (a - 1)) & ~(a - 1)`, for a power of two `a`, and comes out mod `2 ^ w` (`toNat_alignMask`).
-/

namespace Csapp.Lib

def alignUp (a x : ℕ) : ℕ := (x + (a - 1)) / a * a

section AlignUp

variable {a x : ℕ} (ha : 0 < a)

theorem dvd_alignUp (a x : ℕ) : a ∣ alignUp a x := Nat.dvd_mul_left a _

include ha

theorem le_alignUp (x : ℕ) : x ≤ alignUp a x := by
  have hdiv := Nat.div_add_mod (x + (a - 1)) a
  have hmod := Nat.mod_lt (x + (a - 1)) ha
  rw [alignUp, Nat.mul_comm]
  omega

theorem alignUp_lt (x : ℕ) : alignUp a x < x + a := by
  have hdiv := Nat.div_mul_le_self (x + (a - 1)) a
  rw [alignUp]
  omega

theorem alignUp_le {y : ℕ} (hxy : x ≤ y) (hy : a ∣ y) : alignUp a x ≤ y := by
  obtain ⟨c, rfl⟩ := hy
  have hlt : x + (a - 1) < (c + 1) * a := by
    rw [Nat.succ_mul, Nat.mul_comm]
    omega
  have hdiv : (x + (a - 1)) / a ≤ c := Nat.le_of_lt_succ ((Nat.div_lt_iff_lt_mul ha).mpr hlt)
  rw [alignUp, Nat.mul_comm a c]
  exact Nat.mul_le_mul_right a hdiv

end AlignUp

/-! ## Masks -/

/-- Clearing the lower `k` bits of a number of `w` bits. -/
theorem and_mask {x w k : ℕ} (hx : x < 2 ^ w) (hk : k ≤ w) :
    x &&& (2 ^ w - (2 ^ k - 1 + 1)) = x / 2 ^ k * 2 ^ k := by
  have hlt : 2 ^ k - 1 < 2 ^ w := by
    have hle := Nat.pow_le_pow_right Nat.two_pos hk
    have hpos := Nat.two_pow_pos k
    omega
  refine Nat.eq_of_testBit_eq fun i => ?_
  rw [Nat.testBit_and, Nat.testBit_two_pow_sub_succ hlt, Nat.testBit_two_pow_sub_one,
    Nat.testBit_mul_two_pow, Nat.testBit_div_two_pow]
  by_cases hki : k ≤ i
  · rw [Nat.sub_add_cancel hki]
    by_cases hiw : i < w
    · simp [hki, hiw]
    · have hout : x.testBit i = false :=
        Nat.testBit_lt_two_pow (Nat.lt_of_lt_of_le hx (Nat.pow_le_pow_right Nat.two_pos (Nat.not_lt.mp hiw)))
      simp [hout]
  · simp [hki, Nat.not_le.mp hki]

/-- **The mask rounds up**, with the carry out of the word lost. -/
theorem toNat_alignMask {w k : ℕ} (x a : BitVec w) (ha : a.toNat = 2 ^ k) :
    ((x + (a - 1)) &&& ~~~(a - 1)).toNat = alignUp a.toNat x.toNat % 2 ^ w := by
  have hk : k < w := (Nat.pow_lt_pow_iff_right (Nat.lt_succ_self 1)).mp (ha ▸ a.isLt)
  have hpos := Nat.two_pow_pos k
  have hone : (1 : BitVec w).toNat = 1 := BitVec.toNat_one (Nat.zero_lt_of_lt hk)
  have hsub : (a - 1).toNat = 2 ^ k - 1 := by
    rw [BitVec.toNat_sub_of_le (by rw [BitVec.le_def, hone, ha]; exact hpos), hone, ha]
  have hsplit : 2 ^ w = 2 ^ k * 2 ^ (w - k) := by
    rw [← Nat.pow_add, Nat.add_sub_cancel' hk.le]
  rw [BitVec.toNat_and, BitVec.toNat_not, BitVec.toNat_add, hsub, Nat.sub_sub, Nat.add_comm 1 (2 ^ k - 1),
    and_mask (Nat.mod_lt _ (Nat.two_pow_pos w)) hk.le, alignUp, ha, hsplit, Nat.mod_mul_right_div_self,
    Nat.mul_comm (2 ^ k) (2 ^ (w - k)), Nat.mul_mod_mul_right]

end Csapp.Lib
