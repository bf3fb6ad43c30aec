import Csapp.Bignum.Value

/-!
# Bignum.Bits — `pylong_and` on non-negative integers

The loop writes the digit-wise `and` of the digits both operands have.  The base is a power of two, so
these are the digits of the bitwise `and`; `pylong_clamp` removes the zeros it creates at the top.
-/

namespace Csapp.Bignum

open Csapp.Lib

variable {a b z : PyLongObject}

/-- The loop has written the `and` of the first `i` digits. -/
structure AndInv (a b : PyLongObject) (n i : ℕ) (z : PyLongObject) : Prop where
  filled : Filled z n i
  digits : z.obDigit.take i = List.zipWith (· &&& ·) (a.digits.take i) (b.digits.take i)

theorem andBody_spec (ha : Bounded a) (hb : Bounded b) {n i : ℕ} (hia : i < a.absSize)
    (hib : i < b.absSize) (hin : i < n) (h : AndInv a b n i z) :
    ∃ z', andBody a b i z = some z' ∧ AndInv a b n (i + 1) z' := by
  obtain ⟨hla, hda, hxa⟩ := ha.digitAt hia
  obtain ⟨hlb, hdb, -⟩ := hb.digitAt hib
  have hl : i < z.obDigit.length := by rw [h.filled.len]; exact hin
  have hlt : a.digits[i] &&& b.digits[i] < base := lt_of_le_of_lt Nat.and_le_left hxa
  obtain ⟨z', h1, h2, -⟩ := h.filled.setDigit hin hlt
  refine ⟨z', by simp only [andBody, hda, hdb, Option.bind_eq_bind, Option.bind_some, h1], h2, ?_⟩
  rw [setDigit_eq hl] at h1
  rw [← Option.some.inj h1]
  show (z.obDigit.set i _).take (i + 1) = _
  have hlen : (a.digits.take i).length = (b.digits.take i).length := by
    rw [List.length_take_of_le (le_of_lt hla), List.length_take_of_le (le_of_lt hlb)]
  rw [take_succ_set hl, h.digits, List.take_succ_eq_append_getElem hla,
    List.take_succ_eq_append_getElem hlb, List.zipWith_append hlen]
  rfl

/-- The digits past the shorter operand do not matter. -/
theorem zipWith_take_min (f : ℕ → ℕ → ℕ) (xs ys : List ℕ) :
    List.zipWith f (xs.take (min xs.length ys.length)) (ys.take (min xs.length ys.length))
      = List.zipWith f xs ys := by
  rw [← List.take_zipWith, List.take_of_length_le (by rw [List.length_zipWith])]

/-- A non-negative value has a non-negative size field. -/
theorem Canonical.obSize_nonneg (ha : Canonical a) (h0 : 0 ≤ val a) : 0 ≤ a.obSize := by
  by_contra hneg
  have hpos := ha.magnitude_pos (by omega)
  rw [val, if_pos (by omega)] at h0
  omega

theorem val_of_nonneg (h0 : 0 ≤ a.obSize) : val a = magnitude a := if_neg (by omega)

/-- What the loop leaves, as an object with all digits in use. -/
theorem andLoop_spec (ha : Bounded a) (hb : Bounded b) {n : ℕ} (hn : n = min a.absSize b.absSize) :
    ∃ z, forRange 0 n (andBody a b) (pylongAlloc n) = some z ∧ Bounded { z with obSize := n } ∧
      magnitude { z with obSize := n } = magnitude a &&& magnitude b := by
  obtain ⟨z, h1, h2⟩ := forRange_inv (andBody a b) (AndInv a b n) (Nat.zero_le n)
    ⟨pylongAlloc_filled n, rfl⟩
    fun i z _ hi hz => andBody_spec ha hb (by omega) (by omega) hi hz
  obtain ⟨hbd, hm⟩ := h2.filled.bounded le_rfl (Int.natAbs_natCast n)
  refine ⟨z, h1, hbd, ?_⟩
  have hdig : z.obDigit.take n = List.zipWith (· &&& ·) a.digits b.digits := by
    rw [h2.digits, hn, ← ha.length_digits, ← hb.length_digits, zipWith_take_min]
  rw [hm, stored, hdig]
  exact ofDigits_zipWith_and ha.lt hb.lt

/-- **`pylong_and`** of non-negative objects is canonical and stands for the bitwise `and`. -/
theorem and_exact (a b : PyLongObject) (ha : Canonical a) (hb : Canonical b) (ha0 : 0 ≤ val a)
    (hb0 : 0 ≤ val b) : ∃ z, pylongAnd a b = some (some z) ∧ Canonical z ∧
      val z = ((val a).toNat &&& (val b).toNat : ℕ) := by
  have hsa := ha.obSize_nonneg ha0
  have hsb := hb.obSize_nonneg hb0
  obtain ⟨z, h1, h2, h3⟩ := andLoop_spec ha.toBounded hb.toBounded rfl
  obtain ⟨z', h4, h5, h6, -⟩ := pylongClamp_spec h2
  refine ⟨z', ?_, h5, ?_⟩
  · simp only [pylongAnd, if_pos (And.intro hsa hsb), h1, h4, Option.bind_eq_bind, Option.bind_some]
    rfl
  · rw [h6, val_of_nonneg (Int.natCast_nonneg _), h3, val_of_nonneg hsa, val_of_nonneg hsb,
      Int.toNat_natCast, Int.toNat_natCast]

/-- Three digits and two: the `and` loses the second digit, too. -/
theorem and_exact_sample : ∃ z, pylongAnd ⟨3, [6, 1, 1]⟩ ⟨2, [3, 2]⟩ = some (some z) ∧ Canonical z ∧
    val z = (2 : ℕ) := by
  have ha : Canonical ⟨3, [6, 1, 1]⟩ := (pylongVerifyInvariants_iff (by decide)).mp (by decide)
  have hb : Canonical ⟨2, [3, 2]⟩ := (pylongVerifyInvariants_iff (by decide)).mp (by decide)
  obtain ⟨z, h1, h2, h3⟩ := and_exact ⟨3, [6, 1, 1]⟩ ⟨2, [3, 2]⟩ ha hb (by decide) (by decide)
  exact ⟨z, h1, h2, h3.trans (by decide)⟩

end Csapp.Bignum
