import Csapp.Bignum.Value

/-!
# Bignum.Order — `pylong_compare` is the order of the integers

An integer has one canonical form (`Canonical.val_inj`), so that the comparison by digit count and
digits is the comparison of values, and equal values are equal objects.
-/

namespace Csapp.Bignum

variable {a b : PyLongObject}

/-! ## One form for every integer -/

/-- The digit count is read off the magnitude. -/
theorem Canonical.absSize_eq (ha : Canonical a) (hb : Canonical b) (h : magnitude a = magnitude b) :
    a.absSize = b.absSize := by
  rcases lt_trichotomy a.absSize b.absSize with hlt | heq | hgt
  · have := hb.magnitude_lt_of_size ha.toBounded hlt
    omega
  · exact heq
  · have := ha.magnitude_lt_of_size hb.toBounded hgt
    omega

/-- Equal magnitudes have equal digits. -/
theorem Canonical.magnitude_inj (ha : Canonical a) (hb : Canonical b) :
    magnitude a = magnitude b ↔ a.absSize = b.absSize ∧ a.digits = b.digits := by
  constructor
  · intro h
    have hsize := ha.absSize_eq hb h
    refine ⟨hsize, Nat.ofDigits_inj_of_len_eq (by decide) ?_ ha.lt hb.lt h⟩
    rw [ha.length_digits, hb.length_digits, hsize]
  · rintro ⟨-, h⟩
    rw [magnitude, magnitude, h]

/-- The sign of the size field is the sign of the value. -/
theorem Canonical.signOf_eq (h : Canonical a) : signOf a = Int.sign (val a) := by
  have hpos := h.magnitude_pos
  have hzero : a.obSize = 0 → magnitude a = 0 := magnitude_zero
  unfold signOf val
  rcases lt_trichotomy a.obSize 0 with hlt | heq | hgt
  · have := hpos (by omega)
    rw [if_neg (by omega), if_pos hlt, if_pos hlt, Int.sign_eq_neg_one_of_neg (by omega)]
  · rw [if_neg (by omega), if_neg (by omega), if_neg (by omega), hzero heq]
    rfl
  · have := hpos (by omega)
    rw [if_pos hgt, if_neg (by omega), Int.sign_eq_one_of_pos (by omega)]

/-- **Canonical forms are unique**: equal values have the same size field and the same digits. -/
theorem Canonical.val_inj (ha : Canonical a) (hb : Canonical b) :
    val a = val b ↔ a.obSize = b.obSize ∧ a.digits = b.digits := by
  constructor
  · intro h
    have hmag : magnitude a = magnitude b := by rw [← val_natAbs a, ← val_natAbs b, h]
    obtain ⟨hsize, hdig⟩ := (ha.magnitude_inj hb).mp hmag
    have hsign : signOf a = signOf b := by rw [ha.signOf_eq, hb.signOf_eq, h]
    refine ⟨?_, hdig⟩
    unfold PyLongObject.absSize at hsize
    unfold signOf at hsign
    split_ifs at hsign <;> omega
  · rintro ⟨hsize, hdig⟩
    rw [val, val, magnitude, magnitude, hsize, hdig]

/-! ## The comparison -/

/-- Signs decide first, then the magnitudes, swapped for negative numbers. -/
theorem pylongCompare_spec (ha : Canonical a) (hb : Canonical b) :
    pylongCompare a b = some (Int.sign (val a - val b)) := by
  have hma := ha.magnitude_pos
  have hmb := hb.magnitude_pos
  have hza : a.obSize = 0 → magnitude a = 0 := magnitude_zero
  have hzb : b.obSize = 0 → magnitude b = 0 := magnitude_zero
  have hsa : signOf a = if a.obSize > 0 then 1 else if a.obSize < 0 then -1 else 0 := rfl
  have hsb : signOf b = if b.obSize > 0 then 1 else if b.obSize < 0 then -1 else 0 := rfl
  unfold pylongCompare
  rcases lt_trichotomy (signOf a) (signOf b) with hlt | heq | hgt
  · have hval : val a < val b := by
      unfold val
      split_ifs at hsa hsb ⊢ <;> omega
    rw [if_neg (by omega), if_pos hlt, Int.sign_eq_neg_one_of_neg (by omega)]
  · rw [if_neg (by omega), if_neg (by omega)]
    split_ifs with h0 hpos
    · -- both are zero
      have hval : val a - val b = 0 := by
        unfold val
        split_ifs at hsa hsb ⊢ <;> omega
      rw [hval]
      rfl
    · have hval : val a - val b = (magnitude a : ℤ) - magnitude b := by
        unfold val
        split_ifs at hsa hsb ⊢ <;> omega
      rw [pylongCompareMagnitude_spec ha hb, hval]
    · have hval : val a - val b = (magnitude b : ℤ) - magnitude a := by
        unfold val
        split_ifs at hsa hsb ⊢ <;> omega
      rw [pylongCompareMagnitude_spec hb ha, hval]
  · have hval : val b < val a := by
      unfold val
      split_ifs at hsa hsb ⊢ <;> omega
    rw [if_pos hgt, Int.sign_eq_one_of_pos (by omega)]

/-- **Comparison is the order of the integers**: both functions return the sign of the difference, of the
values and of their absolute values, and equality is equality of the objects. -/
theorem compare_is_order (a b : PyLongObject) (ha : Canonical a) (hb : Canonical b) :
    pylongCompare a b = some (Int.sign (val a - val b)) ∧
      pylongCompareMagnitude a b = some (Int.sign (|val a| - |val b|)) ∧
      (pylongCompare a b = some 0 ↔ a.obSize = b.obSize ∧ a.digits = b.digits) ∧
      (pylongCompareMagnitude a b = some 0 ↔ a.absSize = b.absSize ∧ a.digits = b.digits) := by
  have habs : ∀ op, |val op| = (magnitude op : ℤ) := by
    intro op
    rw [Int.abs_eq_natAbs, val_natAbs]
  have hcmp := pylongCompare_spec ha hb
  have hmag := pylongCompareMagnitude_spec ha hb
  refine ⟨hcmp, ?_, ?_, ?_⟩
  · rw [habs, habs]
    exact hmag
  · rw [hcmp, Option.some.injEq, Int.sign_eq_zero_iff_zero, sub_eq_zero]
    exact ha.val_inj hb
  · rw [hmag, Option.some.injEq, Int.sign_eq_zero_iff_zero, sub_eq_zero, Nat.cast_inj]
    exact ha.magnitude_inj hb

/-- `-(2 ^ 30)` and `-1`. -/
theorem compare_is_order_sample :
    pylongCompare ⟨-2, [0, 1]⟩ ⟨-1, [1]⟩ = some (-1) ∧
      pylongCompareMagnitude ⟨-2, [0, 1]⟩ ⟨-1, [1]⟩ = some 1 := by
  have ha : Canonical ⟨-2, [0, 1]⟩ := (pylongVerifyInvariants_iff (by decide)).mp (by decide)
  have hb : Canonical ⟨-1, [1]⟩ := (pylongVerifyInvariants_iff (by decide)).mp (by decide)
  obtain ⟨h1, h2, -, -⟩ := compare_is_order ⟨-2, [0, 1]⟩ ⟨-1, [1]⟩ ha hb
  exact ⟨h1.trans (by decide), h2.trans (by decide)⟩

end Csapp.Bignum
