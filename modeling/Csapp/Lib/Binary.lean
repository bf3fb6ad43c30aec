import Mathlib.Algebra.Order.Field.Rat
import Mathlib.Data.Nat.Cast.Order.Ring
import Mathlib.Order.Monotone.Basic
import Mathlib.Tactic.Positivity
import Mathlib.Tactic.Ring
import Mathlib.Algebra.Order.Field.Power
import Mathlib.Data.Rat.Floor

/-!
# Lib.Binary — binary floating point formats

A format has `e` bits of exponent and `p` bits of fraction.  A pattern without its sign is a number `n`: the
exponent field is `n / 2 ^ p`, the fraction `n % 2 ^ p`.  Its `magnitude` counts the least positive numbers of
the format; it grows with `n` (`strictMono_magnitude`), so that a number has one pattern (`datum_inj`).  Infinity is the
pattern `top`, where the magnitudes pass the bound of the format, and everything behind it is not a number.
`double_datum` gives the pattern of the double of a number, and `truncate` rounds a number toward zero.
-/

namespace Csapp.Lib

/-! ## Magnitudes -/

/-- Subnormal numbers are those with exponent field 0. -/
def magnitude (p n : ℕ) : ℕ := if n < 2 ^ p then n else (2 ^ p + n % 2 ^ p) * 2 ^ (n / 2 ^ p - 1)

section Magnitude

variable {p n : ℕ}

theorem magnitude_of_lt (h : n < 2 ^ p) : magnitude p n = n := if_pos h

theorem magnitude_normal (q : ℕ) {r : ℕ} (hr : r < 2 ^ p) :
    magnitude p ((q + 1) * 2 ^ p + r) = (2 ^ p + r) * 2 ^ q := by
  have hpos := Nat.two_pow_pos p
  have hge : ¬ (q + 1) * 2 ^ p + r < 2 ^ p := by
    rw [Nat.succ_mul]
    omega
  have hdiv : ((q + 1) * 2 ^ p + r) / 2 ^ p = q + 1 := by
    rw [Nat.add_comm, Nat.add_mul_div_right _ _ hpos, Nat.div_eq_of_lt hr, Nat.zero_add]
  have hmod : ((q + 1) * 2 ^ p + r) % 2 ^ p = r := by
    rw [Nat.add_comm, Nat.add_mul_mod_self_right, Nat.mod_eq_of_lt hr]
  rw [magnitude, if_neg hge, hdiv, hmod, Nat.add_sub_cancel]

/-- A normal pattern has a positive exponent field. -/
theorem exists_normal (h : 2 ^ p ≤ n) : ∃ q r, r < 2 ^ p ∧ n = (q + 1) * 2 ^ p + r := by
  have hpos := Nat.two_pow_pos p
  have hdiv : 1 ≤ n / 2 ^ p := (Nat.one_le_div_iff hpos).mpr h
  refine ⟨n / 2 ^ p - 1, n % 2 ^ p, Nat.mod_lt _ hpos, ?_⟩
  rw [Nat.sub_add_cancel hdiv, Nat.mul_comm]
  exact (Nat.div_add_mod n _).symm

/-- The next exponent doubles a normal number. -/
theorem magnitude_add (h : 2 ^ p ≤ n) : magnitude p (n + 2 ^ p) = 2 * magnitude p n := by
  obtain ⟨q, r, hr, rfl⟩ := exists_normal h
  have hnext : (q + 1) * 2 ^ p + r + 2 ^ p = (q + 1 + 1) * 2 ^ p + r := by ring
  rw [hnext, magnitude_normal (q + 1) hr, magnitude_normal q hr, Nat.pow_succ]
  ring

/-- Doubling the fraction doubles a subnormal number, also where it becomes normal. -/
theorem magnitude_double (h : n < 2 ^ p) : magnitude p (2 * n) = 2 * magnitude p n := by
  rw [magnitude_of_lt h]
  by_cases h2 : 2 * n < 2 ^ p
  · exact magnitude_of_lt h2
  · obtain ⟨r, hr⟩ : ∃ r, 2 * n = (0 + 1) * 2 ^ p + r := ⟨2 * n - 2 ^ p, by omega⟩
    rw [hr, magnitude_normal 0 (by omega), Nat.pow_zero, Nat.mul_one, Nat.zero_add, Nat.one_mul]

theorem magnitude_lt_succ (p n : ℕ) : magnitude p n < magnitude p (n + 1) := by
  by_cases h : n + 1 < 2 ^ p
  · rw [magnitude_of_lt h, magnitude_of_lt (by omega)]
    exact Nat.lt_succ_self n
  by_cases hn : n < 2 ^ p
  · have he : n + 1 = (0 + 1) * 2 ^ p + 0 := by omega
    rw [magnitude_of_lt hn, he, magnitude_normal 0 (Nat.two_pow_pos p)]
    omega
  obtain ⟨q, r, hr, rfl⟩ := exists_normal (Nat.not_lt.mp hn)
  have hq := Nat.two_pow_pos q
  rw [magnitude_normal q hr]
  by_cases hr1 : r + 1 < 2 ^ p
  · rw [Nat.add_assoc, magnitude_normal q hr1]
    exact Nat.mul_lt_mul_of_pos_right (by omega) hq
  · -- the next exponent starts with fraction 0
    have he : (q + 1) * 2 ^ p + r + 1 = (q + 1 + 1) * 2 ^ p + 0 := by
      rw [Nat.succ_mul (q + 1)]
      omega
    rw [he, magnitude_normal (q + 1) (Nat.two_pow_pos p), Nat.add_zero, Nat.pow_succ, Nat.mul_comm _ 2,
      ← Nat.mul_assoc]
    exact Nat.mul_lt_mul_of_pos_right (by omega) hq

theorem strictMono_magnitude (p : ℕ) : StrictMono (magnitude p) :=
  strictMono_nat_of_lt_succ (magnitude_lt_succ p)

end Magnitude

/-! ## What a pattern stands for -/

inductive Datum
  | nan
  | infinity (negative : Bool)
  | finite (negative : Bool) (value : ℚ)

/-- The pattern of infinity, without its sign. -/
def top (e p : ℕ) : ℕ := (2 ^ e - 1) * 2 ^ p

/-- The least positive number. -/
def leastPositive (e p : ℕ) : ℚ := 2 ^ ((2 : ℤ) - 2 ^ (e - 1) - p)

def datum (e p : ℕ) (negative : Bool) (n : ℕ) : Datum :=
  if n < top e p then
    .finite negative ((if negative then -1 else 1) * (magnitude p n * leastPositive e p))
  else if n = top e p then .infinity negative
  else .nan

/-- Twice the number, or infinity where that is out of range. -/
def Datum.double (e : ℕ) : Datum → Datum
  | .nan => .nan
  | .infinity negative => .infinity negative
  | .finite negative value =>
    if |2 * value| < 2 ^ 2 ^ (e - 1) then .finite negative (2 * value) else .infinity negative

/-- Rounding toward zero. -/
def truncate (value : ℚ) : ℤ := if 0 ≤ value then ⌊value⌋ else ⌈value⌉

section Sign

variable {x : ℚ} (s : Bool)

theorem abs_sign_mul (hx : 0 ≤ x) : |(if s then -1 else 1) * x| = x := by
  cases s
  · rw [if_neg Bool.false_ne_true, one_mul, abs_of_nonneg hx]
  · rw [if_pos rfl, neg_one_mul, abs_neg, abs_of_nonneg hx]

theorem truncate_sign_mul (hx : 0 ≤ x) : truncate ((if s then -1 else 1) * x) = (if s then -1 else 1) * ⌊x⌋ := by
  cases s
  · rw [if_neg Bool.false_ne_true, if_neg Bool.false_ne_true, one_mul, one_mul, truncate, if_pos hx]
  · rw [if_pos rfl, if_pos rfl, neg_one_mul, neg_one_mul, truncate]
    rcases hx.eq_or_lt with rfl | hpos
    · rw [neg_zero, if_pos le_rfl, Int.floor_zero, neg_zero]
    · rw [if_neg (not_le.mpr (neg_neg_of_pos hpos)), Int.ceil_neg]

end Sign

section Datum

variable {e p n m : ℕ} {s t : Bool}

theorem leastPositive_pos (e p : ℕ) : 0 < leastPositive e p := by
  unfold leastPositive
  positivity

theorem datum_finite (h : n < top e p) :
    datum e p s n = .finite s ((if s then -1 else 1) * (magnitude p n * leastPositive e p)) := if_pos h

theorem datum_top (e p : ℕ) (s : Bool) : datum e p s (top e p) = .infinity s := by
  rw [datum, if_neg (Nat.lt_irrefl _), if_pos rfl]

theorem datum_nan (h : top e p < n) : datum e p s n = .nan := by
  rw [datum, if_neg (Nat.lt_asymm h), if_neg (Nat.ne_of_gt h)]

/-- **A number has one pattern.** -/
theorem datum_inj (hn : n ≤ top e p) (hm : m ≤ top e p) (h : datum e p s n = datum e p t m) : s = t ∧ n = m := by
  have hpos := leastPositive_pos e p
  rcases Nat.lt_or_eq_of_le hn with hn | rfl <;> rcases Nat.lt_or_eq_of_le hm with hm | rfl
  · rw [datum_finite hn, datum_finite hm] at h
    obtain ⟨rfl, h⟩ := Datum.finite.inj h
    have hsign : (if s then -1 else 1 : ℚ) ≠ 0 := by cases s <;> decide
    have hmag := mul_right_cancel₀ hpos.ne' (mul_left_cancel₀ hsign h)
    exact ⟨rfl, (strictMono_magnitude p).injective (Nat.cast_inj.mp hmag)⟩
  · rw [datum_finite hn, datum_top] at h
    cases h
  · rw [datum_finite hm, datum_top] at h
    cases h
  · rw [datum_top, datum_top] at h
    cases h
    exact ⟨rfl, rfl⟩

/-- The bound of the format is the magnitude of the pattern of infinity. -/
theorem magnitude_top (he : 2 ≤ e) (p : ℕ) : (magnitude p (top e p) : ℚ) * leastPositive e p = 2 ^ 2 ^ (e - 1) := by
  obtain ⟨k, rfl⟩ : ∃ k, e = k + 2 := ⟨e - 2, by omega⟩
  have hk := Nat.two_pow_pos k
  obtain ⟨q, hq⟩ : ∃ q, 2 ^ (k + 2) - 1 = q + 1 ∧ q + 2 = 2 ^ (k + 2) := by
    refine ⟨2 ^ (k + 2) - 2, ?_, ?_⟩ <;> rw [Nat.pow_add] <;> omega
  have hmag : magnitude p (top (k + 2) p) = 2 ^ p * 2 ^ q := by
    have h := magnitude_normal (p := p) q (Nat.two_pow_pos p)
    rwa [Nat.add_zero, Nat.add_zero, ← hq.1] at h
  have hexp : ((p : ℤ) + q) + (2 - 2 ^ (k + 1) - p) = ((2 ^ (k + 1) : ℕ) : ℤ) := by
    have hq2 := congrArg (Nat.cast : ℕ → ℤ) hq.2
    push_cast at hq2 ⊢
    rw [pow_succ (2 : ℤ) (k + 1)] at hq2
    generalize (2 : ℤ) ^ (k + 1) = t at hq2 ⊢
    omega
  have h2 : (2 : ℚ) ≠ 0 := by decide
  rw [hmag, leastPositive, Nat.cast_mul, Nat.cast_pow, Nat.cast_pow, Nat.cast_ofNat, ← zpow_natCast, ← zpow_natCast,
    ← zpow_add₀ h2, show k + 2 - 1 = k + 1 from rfl, ← zpow_add₀ h2, hexp, zpow_natCast]

/-- **The double of a number**: the pattern with twice the magnitude, cut off at infinity. -/
theorem double_datum (he : 2 ≤ e) (s : Bool) (hn : n < top e p) (hm : magnitude p m = 2 * magnitude p n) :
    (datum e p s n).double e = datum e p s (min m (top e p)) := by
  have hpos := leastPositive_pos e p
  have hval : 2 * ((if s then -1 else 1) * (magnitude p n * leastPositive e p)) =
      (if s then -1 else 1) * (magnitude p m * leastPositive e p) := by
    rw [hm, Nat.cast_mul]
    ring
  have habs : |(if s then -1 else 1 : ℚ) * (magnitude p m * leastPositive e p)| =
      magnitude p m * leastPositive e p := abs_sign_mul s (by positivity)
  have hlt : (magnitude p m : ℚ) * leastPositive e p < 2 ^ 2 ^ (e - 1) ↔ m < top e p := by
    rw [← magnitude_top he p, mul_lt_mul_iff_left₀ hpos, Nat.cast_lt, (strictMono_magnitude p).lt_iff_lt]
  rw [datum_finite hn, Datum.double, hval, habs]
  by_cases hmt : m < top e p
  · rw [if_pos (hlt.mpr hmt), Nat.min_eq_left hmt.le, datum_finite hmt]
  · rw [if_neg (mt hlt.mp hmt), Nat.min_eq_right (Nat.not_lt.mp hmt), datum_top]

end Datum

end Csapp.Lib
