import Mathlib.Data.Nat.Size
import Mathlib.Order.Bounds.Basic
import Mathlib.Algebra.Order.Ring.Int

/-!
# Lib.Width — how many bits a number takes

`Nat.size` is the number of bits of a natural number.  `highBit j` finds it by halving: is the number at least
`2 ^ 2 ^ j`, then shift it right and go on with half the distance (`highBit_eq_size`).  An integer needs one bit
more in two's complement, for the sign (`isLeast_width`).
-/

namespace Csapp.Lib

theorem size_of_le {k y : ℕ} (h : 2 ^ k ≤ y) : y.size = k + (y / 2 ^ k).size := by
  have hpos := Nat.two_pow_pos k
  have hdiv : 1 ≤ y / 2 ^ k := (Nat.one_le_div_iff hpos).mpr h
  refine Nat.le_antisymm ?_ ?_
  · rw [Nat.size_le, Nat.pow_add]
    exact Nat.lt_mul_of_div_lt (Nat.lt_size_self _) hpos |>.trans_eq (Nat.mul_comm _ _)
  · obtain ⟨m, hm⟩ : ∃ m, (y / 2 ^ k).size = m + 1 :=
      ⟨(y / 2 ^ k).size - 1, by have := Nat.size_pos.mpr hdiv; omega⟩
    have hle : 2 ^ m ≤ y / 2 ^ k := Nat.lt_size.mp (by omega)
    rw [hm, ← Nat.add_assoc, Nat.add_one_le_iff, Nat.lt_size, Nat.pow_add, Nat.mul_comm]
    exact (Nat.le_div_iff_mul_le hpos).mp hle

/-- The search for the highest bit of a number below `2 ^ 2 ^ j`, by halving the distance. -/
def highBit : ℕ → ℕ → ℕ
  | 0, y => y
  | j + 1, y => if 2 ^ 2 ^ j ≤ y then 2 ^ j + highBit j (y / 2 ^ 2 ^ j) else highBit j y

/-- What one step counts, and what it goes on with. -/
theorem highBit_succ (j y : ℕ) : highBit (j + 1) y =
    (if 2 ^ 2 ^ j ≤ y then 2 ^ j else 0) + highBit j (if 2 ^ 2 ^ j ≤ y then y / 2 ^ 2 ^ j else y) := by
  rw [highBit]
  split_ifs
  · rfl
  · exact (Nat.zero_add _).symm

theorem highBit_eq_size (j : ℕ) {y : ℕ} (h : y < 2 ^ 2 ^ j) : highBit j y = y.size := by
  induction j generalizing y with
  | zero =>
    have h2 : y < 2 := h
    rcases (by omega : y = 0 ∨ y = 1) with rfl | rfl
    · exact Nat.size_zero.symm
    · exact Nat.size_one.symm
  | succ j ih =>
    rw [highBit]
    split_ifs with hle
    · rw [size_of_le hle, ih]
      rw [Nat.pow_succ 2 j, Nat.mul_two, Nat.pow_add] at h
      exact Nat.div_lt_of_lt_mul h
    · exact ih (Nat.not_le.mp hle)

/-! ## Two's complement -/

/-- `n` bits of two's complement are enough for `z`. -/
def FitsIn (z : ℤ) (n : ℕ) : Prop := -2 ^ (n - 1) ≤ z ∧ z ≤ 2 ^ (n - 1) - 1

/-- What is to be stored beside the sign. -/
def folded (z : ℤ) : ℕ := if 0 ≤ z then z.toNat else (-z - 1).toNat

theorem fitsIn_iff {z : ℤ} {n : ℕ} : FitsIn z n ↔ folded z < 2 ^ (n - 1) := by
  have hcast : ((2 ^ (n - 1) : ℕ) : ℤ) = 2 ^ (n - 1) := Nat.cast_pow 2 (n - 1)
  have hpos : (0 : ℤ) < 2 ^ (n - 1) := Int.pow_pos (by decide)
  rw [FitsIn, folded, ← Int.ofNat_lt, hcast]
  split_ifs with hz
  · rw [Int.toNat_of_nonneg hz]
    omega
  · rw [Int.toNat_of_nonneg (by omega)]
    omega

/-- **The width in two's complement** is the number of bits of the folded number and one for the sign. -/
theorem isLeast_width (z : ℤ) : IsLeast {n : ℕ | 1 ≤ n ∧ FitsIn z n} ((folded z).size + 1) := by
  constructor
  · exact ⟨Nat.succ_pos _, fitsIn_iff.mpr (Nat.lt_size_self _)⟩
  · rintro n ⟨hn, hfits⟩
    have hle : (folded z).size ≤ n - 1 := Nat.size_le.mpr (fitsIn_iff.mp hfits)
    omega

end Csapp.Lib
