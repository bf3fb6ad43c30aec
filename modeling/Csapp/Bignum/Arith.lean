import Csapp.Bignum.Convert
import Mathlib.Tactic.LinearCombination

/-!
# Bignum.Arith — addition, subtraction, negation and inversion

Two digit loops carry everything.  While `pylong_add_magnitude` runs, the stored digits and the carry
make up the sum of the digits read so far (`AddInv`); while `pylong_sub_magnitude` runs, the stored
digits and the digits read of `b` exceed those of `a` by the borrow (`SubInv`).  The signed functions
choose between the two by the signs and the magnitudes.
-/

namespace Csapp.Bignum

open Csapp.Lib

variable {a b z : PyLongObject} {n i : ℕ}

/-- Past its length a number has no more digits. -/
theorem Bounded.low_succ_of_le (h : Bounded b) (hi : b.absSize ≤ i) : low b (i + 1) = low b i := by
  rw [h.low_eq hi, h.low_eq (Nat.le_succ_of_le hi)]

/-! ## `pylong_add_magnitude` -/

section AddMagnitude

/-- `i` digits of the sum are stored, the rest is in the carry. -/
structure AddInv (a b : PyLongObject) (i : ℕ) (s : AddState) : Prop where
  filled : Filled s.z (a.absSize + 1) i
  carry_le : s.carry ≤ 1
  value : stored s.z i + base ^ i * s.carry = low a i + low b i

/-- Storing one digit of a sum and carrying the rest. -/
theorem AddState.put_spec {s : AddState} {sum : ℕ} (h : Filled s.z n i) (hi : i < n)
    (hs : sum < 2 * base) : ∃ s', s.put i (u64 sum) = some s' ∧ Filled s'.z n (i + 1) ∧ s'.carry ≤ 1 ∧
      stored s'.z (i + 1) + base ^ (i + 1) * s'.carry = stored s.z i + base ^ i * sum := by
  have hu : u64 sum = sum := Nat.mod_eq_of_lt (lt_trans hs (by decide))
  obtain ⟨z, h1, h2, h3⟩ := h.setDigit hi (Nat.mod_lt sum (by decide : base > 0))
  refine ⟨⟨sum / base, z⟩, ?_, h2, ?_, ?_⟩
  · simp only [AddState.put, hu, and_baseMask, toDigit_mod_base, shiftRight_bits, h1]
    rfl
  · show sum / base ≤ 1
    unfold base at *; omega
  · calc stored z (i + 1) + base ^ (i + 1) * (sum / base)
        = stored s.z i + base ^ i * (sum % base + base * (sum / base)) := by rw [h3, pow_succ]; ring
      _ = stored s.z i + base ^ i * sum := by rw [Nat.mod_add_div]

theorem addBoth_spec (ha : Bounded a) (hb : Bounded b) (hab : b.absSize ≤ a.absSize) {s : AddState}
    (hi : i < b.absSize) (h : AddInv a b i s) :
    ∃ s', addBoth a b i s = some s' ∧ AddInv a b (i + 1) s' := by
  obtain ⟨hla, hda, hxa⟩ := ha.digitAt (i := i) (by omega)
  obtain ⟨hlb, hdb, hxb⟩ := hb.digitAt hi
  have hc := h.carry_le
  obtain ⟨s', h1, h2, h3, h4⟩ := AddState.put_spec (n := a.absSize + 1) h.filled (by omega)
    (by omega : a.digits[i] + b.digits[i] + s.carry < 2 * base)
  refine ⟨s', by simp only [addBoth, hda, hdb, Option.bind_eq_bind, Option.bind_some, h1], h2, h3, ?_⟩
  calc stored s'.z (i + 1) + base ^ (i + 1) * s'.carry
      = stored s.z i + base ^ i * s.carry + base ^ i * a.digits[i] + base ^ i * b.digits[i] := by
        rw [h4]; ring
    _ = low a (i + 1) + low b (i + 1) := by rw [h.value, low_succ hla, low_succ hlb]; ring

theorem addRest_spec (ha : Bounded a) (hb : Bounded b) {s : AddState} (hbi : b.absSize ≤ i)
    (hi : i < a.absSize) (h : AddInv a b i s) :
    ∃ s', addRest a i s = some s' ∧ AddInv a b (i + 1) s' := by
  obtain ⟨hla, hda, hxa⟩ := ha.digitAt hi
  have hc := h.carry_le
  obtain ⟨s', h1, h2, h3, h4⟩ := AddState.put_spec (n := a.absSize + 1) h.filled (by omega)
    (by omega : a.digits[i] + s.carry < 2 * base)
  refine ⟨s', by simp only [addRest, hda, Option.bind_eq_bind, Option.bind_some, h1], h2, h3, ?_⟩
  calc stored s'.z (i + 1) + base ^ (i + 1) * s'.carry
      = stored s.z i + base ^ i * s.carry + base ^ i * a.digits[i] := by rw [h4]; ring
    _ = low a (i + 1) + low b (i + 1) := by
        rw [h.value, low_succ hla, hb.low_succ_of_le hbi]; ring

/-- A clamped array of non-negative size has its digits' value. -/
theorem Filled.clamp (h : Filled z n i) (hi : i ≤ n) :
    ∃ z', pylongClamp { z with obSize := i } = some z' ∧ Canonical z' ∧ val z' = stored z i := by
  obtain ⟨hb, hm⟩ := h.bounded hi (Int.natAbs_natCast i)
  obtain ⟨z', h1, h2, h3, -⟩ := pylongClamp_spec hb
  refine ⟨z', h1, h2, ?_⟩
  rw [h3, val, hm, if_neg (by simp)]

theorem addMagnitude_spec (ha : Bounded a) (hb : Bounded b) (hab : b.absSize ≤ a.absSize) :
    ∃ z, addMagnitude a b = some z ∧ Canonical z ∧ val z = magnitude a + magnitude b := by
  obtain ⟨s₁, h1, h2⟩ := forRange_inv (s := ⟨0, pylongAlloc (a.absSize + 1)⟩) (addBoth a b)
    (AddInv a b) (Nat.zero_le b.absSize)
    ⟨pylongAlloc_filled _, by simp, by simp [stored_zero, low_zero]⟩
    fun i s _ hi hs => addBoth_spec ha hb hab hi hs
  obtain ⟨s, h3, h4⟩ := forRange_inv (addRest a) (AddInv a b) hab h2
    fun i s hbi hi hs => addRest_spec ha hb hbi hi hs
  have hv := h4.value
  rw [ha.low_eq le_rfl, hb.low_eq hab] at hv
  simp only [addMagnitude, Option.bind_eq_bind, h1, h3, Option.bind_some]
  by_cases hc : s.carry > 0
  · have hc1 : s.carry = 1 := by have := h4.carry_le; omega
    obtain ⟨z, h5, h6, h7⟩ := h4.filled.setDigit (d := 1) (Nat.lt_succ_self _) (by decide)
    obtain ⟨z', h8, h9, h10⟩ := h6.clamp le_rfl
    refine ⟨z', ?_, h9, ?_⟩
    · rw [if_pos hc, hc1, show toDigit 1 = 1 from rfl, h5, Option.bind_some]
      exact h8
    · rw [h10, h7, ← hc1, hv]; push_cast; rfl
  · obtain ⟨z', h8, h9, h10⟩ := h4.filled.clamp (Nat.le_succ _)
    refine ⟨z', by rw [if_neg hc]; exact h8, h9, ?_⟩
    rw [show s.carry = 0 by omega, Nat.mul_zero, Nat.add_zero] at hv
    rw [h10, hv]; push_cast; rfl

/-- **`pylong_add_magnitude`** adds magnitudes. -/
theorem pylongAddMagnitude_spec (ha : Bounded a) (hb : Bounded b) :
    ∃ z, pylongAddMagnitude a b = some z ∧ Canonical z ∧ val z = magnitude a + magnitude b := by
  unfold pylongAddMagnitude
  split_ifs with h
  · obtain ⟨z, h1, h2, h3⟩ := addMagnitude_spec hb ha (le_of_lt h)
    exact ⟨z, h1, h2, by rw [h3, add_comm]⟩
  · exact addMagnitude_spec ha hb (not_lt.mp h)

end AddMagnitude

/-! ## `pylong_sub_magnitude` -/

section SubMagnitude

/-- `i` digits of the difference are stored, with a borrow from the next one. -/
structure SubInv (a b : PyLongObject) (i : ℕ) (s : SubState) : Prop where
  filled : Filled s.z a.absSize i
  borrow : s.borrow = 0 ∨ s.borrow = 1
  value : (stored s.z i : ℤ) + low b i = low a i + base ^ i * s.borrow

theorem toDigit_toU64 {d : ℕ} (h : d < base) : toDigit (toU64 d) = d := by
  unfold toDigit toU64 base at *
  omega

/-- `diff += BASE` goes through `uint64_t` and comes back. -/
theorem add_base {diff : ℤ} (hlo : -base ≤ diff) (h0 : diff < 0) :
    toS64 (u64 (toU64 diff + base)) = diff + base := by
  have hu : u64 (toU64 diff + base) = (diff + base).toNat := by
    unfold u64 toU64 base at *
    omega
  rw [hu, toS64, if_pos (by unfold base at *; omega)]
  exact Int.toNat_of_nonneg (by omega)

/-- Storing one digit of a difference, with a borrow when it is negative. -/
theorem SubState.put_spec {s : SubState} (diff : ℤ) (h : Filled s.z n i) (hi : i < n)
    (hlo : -base ≤ diff) (hhi : diff < base) :
    ∃ s', s.put i diff = some s' ∧ Filled s'.z n (i + 1) ∧ (s'.borrow = 0 ∨ s'.borrow = 1) ∧
      (stored s'.z (i + 1) : ℤ) = stored s.z i + base ^ i * diff + base ^ (i + 1) * s'.borrow := by
  by_cases hneg : diff < 0
  · obtain ⟨d, hd⟩ := Int.eq_ofNat_of_zero_le (by omega : 0 ≤ diff + base)
    have hlt : d < base := by omega
    obtain ⟨z, h1, h2, h3⟩ := h.setDigit hi hlt
    refine ⟨⟨1, z⟩, ?_, h2, Or.inr rfl, ?_⟩
    · simp only [SubState.put, if_pos hneg, add_base hlo hneg, hd, toDigit_toU64 hlt, h1]
      rfl
    · rw [show diff = d - base by omega]
      simp only [h3]
      push_cast
      ring
  · obtain ⟨d, rfl⟩ := Int.eq_ofNat_of_zero_le (not_lt.mp hneg)
    have hlt : d < base := by omega
    obtain ⟨z, h1, h2, h3⟩ := h.setDigit hi hlt
    refine ⟨⟨0, z⟩, ?_, h2, Or.inl rfl, ?_⟩
    · simp only [SubState.put, if_neg hneg, toDigit_toU64 hlt, h1]
      rfl
    · simp only [h3]
      push_cast
      ring

theorem subBoth_spec (ha : Bounded a) (hb : Bounded b) (hab : b.absSize ≤ a.absSize) {s : SubState}
    (hi : i < b.absSize) (h : SubInv a b i s) :
    ∃ s', subBoth a b i s = some s' ∧ SubInv a b (i + 1) s' := by
  obtain ⟨hla, hda, hxa⟩ := ha.digitAt (i := i) (by omega)
  obtain ⟨hlb, hdb, hxb⟩ := hb.digitAt hi
  have hbw := h.borrow
  obtain ⟨s', h1, h2, h3, h4⟩ := SubState.put_spec (n := a.absSize) (s := s)
    ((a.digits[i] : ℤ) - b.digits[i] - s.borrow) h.filled (by omega) (by omega) (by omega)
  refine ⟨s', by simp only [subBoth, hda, hdb, Option.bind_eq_bind, Option.bind_some, h1], h2, h3, ?_⟩
  have hv := h.value
  rw [low_succ hla, low_succ hlb, h4]
  push_cast at hv ⊢
  linear_combination hv

theorem subRest_spec (ha : Bounded a) (hb : Bounded b) {s : SubState} (hbi : b.absSize ≤ i)
    (hi : i < a.absSize) (h : SubInv a b i s) :
    ∃ s', subRest a i s = some s' ∧ SubInv a b (i + 1) s' := by
  obtain ⟨hla, hda, hxa⟩ := ha.digitAt hi
  have hbw := h.borrow
  obtain ⟨s', h1, h2, h3, h4⟩ := SubState.put_spec (n := a.absSize) (s := s)
    ((a.digits[i] : ℤ) - s.borrow) h.filled hi (by omega) (by omega)
  refine ⟨s', by simp only [subRest, hda, Option.bind_eq_bind, Option.bind_some, h1], h2, h3, ?_⟩
  have hv := h.value
  rw [low_succ hla, hb.low_succ_of_le hbi, h4]
  push_cast at hv ⊢
  linear_combination hv

/-- **`pylong_sub_magnitude`** subtracts the smaller magnitude; neither assertion fails. -/
theorem pylongSubMagnitude_spec (ha : Canonical a) (hb : Canonical b)
    (hle : magnitude b ≤ magnitude a) :
    ∃ z, pylongSubMagnitude a b = some z ∧ Canonical z ∧ val z = (magnitude a : ℤ) - magnitude b := by
  have hab : b.absSize ≤ a.absSize := by
    by_contra hc
    have := hb.magnitude_lt_of_size ha.toBounded (not_le.mp hc)
    omega
  obtain ⟨s₁, h1, h2⟩ := forRange_inv (s := ⟨0, pylongAlloc a.absSize⟩) (subBoth a b)
    (SubInv a b) (Nat.zero_le b.absSize)
    ⟨pylongAlloc_filled _, Or.inl rfl, by simp [stored_zero, low_zero]⟩
    fun i s _ hi hs => subBoth_spec ha.toBounded hb.toBounded hab hi hs
  obtain ⟨s, h3, h4⟩ := forRange_inv (subRest a) (SubInv a b) hab h2
    fun i s hbi hi hs => subRest_spec ha.toBounded hb.toBounded hbi hi hs
  have hv := h4.value
  rw [ha.low_eq le_rfl, hb.low_eq hab] at hv
  -- a borrow at the end would need more digits than the array has
  have hbw : s.borrow = 0 := by
    rcases h4.borrow with h0 | h0
    · exact h0
    · have hlt := h4.filled.stored_lt le_rfl
      rw [h0, mul_one] at hv
      have : ((base ^ a.absSize : ℕ) : ℤ) = (base : ℤ) ^ a.absSize := Nat.cast_pow _ _
      omega
  obtain ⟨z, h5, h6, h7⟩ := h4.filled.clamp le_rfl
  refine ⟨z, ?_, h6, ?_⟩
  · have hcmp : ¬ Int.sign ((magnitude a : ℤ) - magnitude b) < 0 := by
      rw [Int.sign_neg_iff]; omega
    simp only [pylongSubMagnitude, pylongCompareMagnitude_spec ha hb, Option.bind_eq_bind,
      Option.bind_some, if_neg hcmp, h1, h3, hbw, ne_eq, not_true_eq_false, if_false, h5]
  · rw [h7]
    rw [hbw, mul_zero, add_zero] at hv
    omega

end SubMagnitude

/-! ## Copies and signs -/

section Signs

/-- `memcpy` into a new object of size `± n`. -/
theorem copyDigits_spec (ha : Canonical a) {size : ℤ} (hs : size.natAbs = a.absSize) :
    ∃ z, copyDigits a a.absSize size = some z ∧ Canonical z ∧ magnitude z = magnitude a ∧
      z.obSize = size := by
  obtain ⟨z, h1, h2, h3⟩ := forRange_inv (s := pylongAlloc a.absSize) (copyBody a)
    (fun i z => Filled z a.absSize i ∧ z.obDigit.take i = a.digits.take i) (Nat.zero_le a.absSize)
    ⟨pylongAlloc_filled _, by simp⟩ fun i z _ hi hz => by
      obtain ⟨hl, hd, hx⟩ := ha.digitAt hi
      have hlz : i < z.obDigit.length := by rw [hz.1.len]; exact hi
      obtain ⟨z', h1, h2, -⟩ := hz.1.setDigit hi hx
      refine ⟨z', by simp only [copyBody, hd, Option.bind_eq_bind, Option.bind_some, h1], h2, ?_⟩
      rw [setDigit_eq hlz] at h1
      rw [← Option.some.inj h1]
      show (z.obDigit.set i _).take (i + 1) = _
      rw [take_succ_set hlz, hz.2, List.take_succ_eq_append_getElem hl]
  obtain ⟨hb, hm⟩ := h2.bounded le_rfl hs
  have hdig : z.obDigit.take a.absSize = a.digits := by
    rw [h3, ← ha.length_digits, List.take_length]
  refine ⟨{ z with obSize := size }, by simp [copyDigits, h1], ⟨hb, fun k hk => ?_⟩, ?_, rfl⟩
  · have hk : a.absSize = k + 1 := hs.symm.trans hk
    have htop := ha.top k hk
    show z.obDigit[k]? ≠ some 0
    rwa [← List.getElem?_take_of_lt (by omega : k < a.absSize), hdig, PyLongObject.digits,
      List.getElem?_take_of_lt (by omega)]
  · rw [hm, stored, hdig]; rfl

/-- Changing the sign of a result. -/
theorem negIf_spec (h : Canonical z) (neg : Bool) : Canonical (negIf neg z) ∧
    val (negIf neg z) = if neg then -val z else val z := by
  cases neg with
  | false => exact ⟨h, rfl⟩
  | true =>
    have habs : (-z.obSize).natAbs = z.absSize := Int.natAbs_neg _
    have hdig : PyLongObject.digits { z with obSize := -z.obSize } = z.digits := by
      simp only [PyLongObject.digits, PyLongObject.absSize, habs]
    refine ⟨⟨⟨?_, ?_⟩, fun n hn => h.top n (habs.symm.trans hn)⟩, ?_⟩
    · exact le_of_eq_of_le habs h.fits
    · show ∀ d ∈ PyLongObject.digits { z with obSize := -z.obSize }, d < base
      rw [hdig]; exact h.lt
    · have hm : magnitude { z with obSize := -z.obSize } = magnitude z :=
        congrArg (Nat.ofDigits base) hdig
      have hp := h.magnitude_pos
      have h0 : z.obSize = 0 → magnitude z = 0 := magnitude_zero
      show val { z with obSize := -z.obSize } = -val z
      simp only [val, hm]
      split_ifs <;> omega

/-- **`pylong_neg`**. -/
theorem pylongNeg_spec (ha : Canonical a) :
    ∃ z, pylongNeg a = some z ∧ Canonical z ∧ val z = -val a := by
  obtain ⟨z, h1, h2, h3, h4⟩ := copyDigits_spec ha (Int.natAbs_neg a.obSize)
  refine ⟨z, h1, h2, ?_⟩
  have hp := ha.magnitude_pos
  have h0 : a.obSize = 0 → magnitude a = 0 := magnitude_zero
  simp only [val, h3, h4]
  split_ifs <;> omega

/-- A copy with the same size. -/
theorem copy_spec (ha : Canonical a) :
    ∃ z, copyDigits a a.absSize a.obSize = some z ∧ Canonical z ∧ val z = val a := by
  obtain ⟨z, h1, h2, h3, h4⟩ := copyDigits_spec ha rfl
  exact ⟨z, h1, h2, by rw [val, val, h3, h4]⟩

end Signs

/-! ## Signed addition -/

section Signed

theorem pylongAlloc_zero_canonical : Canonical (pylongAlloc 0) ∧ val (pylongAlloc 0) = 0 :=
  ⟨(pylongVerifyInvariants_iff (by decide)).mp (by decide), rfl⟩

/-- The larger magnitude first: the difference with the sign of `a`. -/
theorem subSigned_spec (ha : Canonical a) (hb : Canonical b) (hle : magnitude b ≤ magnitude a)
    (hs : a.obSize < 0 ↔ ¬ b.obSize < 0) :
    ∃ z, pylongSubMagnitude a b = some z ∧ Canonical (negIf (decide (a.obSize < 0)) z) ∧
      val (negIf (decide (a.obSize < 0)) z) = val a + val b := by
  obtain ⟨z, h1, h2, h3⟩ := pylongSubMagnitude_spec ha hb hle
  obtain ⟨h4, h5⟩ := negIf_spec h2 (decide (a.obSize < 0))
  refine ⟨z, h1, h4, ?_⟩
  rw [h5, h3]
  simp only [val, decide_eq_true_eq]
  split_ifs <;> omega

/-- **`pylong_add`**. -/
theorem pylongAdd_spec (ha : Canonical a) (hb : Canonical b) :
    ∃ z, pylongAdd a b = some z ∧ Canonical z ∧ val z = val a + val b := by
  unfold pylongAdd
  by_cases ha0 : a.obSize = 0
  · rw [if_pos ha0, ha.obSize_eq_zero.mp ha0, zero_add]
    exact copy_spec hb
  rw [if_neg ha0]
  by_cases hb0 : b.obSize = 0
  · rw [if_pos hb0, hb.obSize_eq_zero.mp hb0, add_zero]
    exact copy_spec ha
  rw [if_neg hb0]
  by_cases hs : (a.obSize > 0 ∧ b.obSize > 0) ∨ (a.obSize < 0 ∧ b.obSize < 0)
  · -- equal signs
    obtain ⟨z, h1, h2, h3⟩ := pylongAddMagnitude_spec ha.toBounded hb.toBounded
    obtain ⟨h4, h5⟩ := negIf_spec h2 (decide (a.obSize < 0))
    refine ⟨_, by rw [if_pos hs, h1]; rfl, h4, ?_⟩
    rw [h5, h3]
    simp only [val, decide_eq_true_eq]
    split_ifs <;> omega
  · -- opposite signs: compare the magnitudes
    rw [if_neg hs, pylongCompareMagnitude_spec ha hb]
    simp only [Option.bind_eq_bind, Option.bind_some]
    rcases lt_trichotomy (magnitude a) (magnitude b) with h | h | h
    · obtain ⟨z, h1, h2, h3⟩ := subSigned_spec hb ha (le_of_lt h) (by omega)
      rw [Int.sign_eq_neg_one_of_neg (by omega)]
      exact ⟨_, by simp [h1], h2, by rw [h3, add_comm]⟩
    · rw [h, sub_self, Int.sign_zero]
      refine ⟨_, rfl, pylongAlloc_zero_canonical.1, ?_⟩
      rw [pylongAlloc_zero_canonical.2]
      simp only [val, h]
      split_ifs <;> omega
    · obtain ⟨z, h1, h2, h3⟩ := subSigned_spec ha hb (le_of_lt h) (by omega)
      rw [Int.sign_eq_one_of_pos (by omega)]
      exact ⟨_, by simp [h1], h2, h3⟩

/-- **`pylong_sub`** adds the negation. -/
theorem pylongSub_spec (ha : Canonical a) (hb : Canonical b) :
    ∃ z, pylongSub a b = some z ∧ Canonical z ∧ val z = val a - val b := by
  obtain ⟨nb, h1, h2, h3⟩ := pylongNeg_spec hb
  obtain ⟨z, h4, h5, h6⟩ := pylongAdd_spec ha h2
  refine ⟨z, by simp [pylongSub, h1, h4], h5, ?_⟩
  rw [h6, h3]
  rfl

/-- **`pylong_invert`** is `-(a + 1)`. -/
theorem pylongInvert_spec (ha : Canonical a) :
    ∃ z, pylongInvert a = some z ∧ Canonical z ∧ val z = -val a - 1 := by
  obtain ⟨one, h1, h2, h3⟩ := pylongFromInt64_spec (v := 1) (by norm_num) (by norm_num)
  obtain ⟨p, h4, h5, h6⟩ := pylongAdd_spec ha h2
  obtain ⟨z, h7, h8, h9⟩ := pylongNeg_spec h5
  refine ⟨z, by simp [pylongInvert, h1, h4, h7], h8, ?_⟩
  rw [h9, h6, h3]
  ring

/-- **Exact addition family**: on canonical objects of any length all four functions return, so that no
assertion fails, and return the canonical object of the exact value. -/
theorem add_family_exact (a b : PyLongObject) (ha : Canonical a) (hb : Canonical b) :
    (∃ z, pylongAdd a b = some z ∧ Canonical z ∧ val z = val a + val b) ∧
      (∃ z, pylongSub a b = some z ∧ Canonical z ∧ val z = val a - val b) ∧
      (∃ z, pylongNeg a = some z ∧ Canonical z ∧ val z = -val a) ∧
      ∃ z, pylongInvert a = some z ∧ Canonical z ∧ val z = -val a - 1 :=
  ⟨pylongAdd_spec ha hb, pylongSub_spec ha hb, pylongNeg_spec ha, pylongInvert_spec ha⟩

/-- `2 ^ 64` and `-1`. -/
theorem add_family_exact_sample :
    (∃ z, pylongAdd twoPow64 ⟨-1, [1]⟩ = some z ∧ Canonical z ∧ val z = 2 ^ 64 - 1) ∧
      (∃ z, pylongSub twoPow64 ⟨-1, [1]⟩ = some z ∧ Canonical z ∧ val z = 2 ^ 64 + 1) ∧
      (∃ z, pylongNeg twoPow64 = some z ∧ Canonical z ∧ val z = -2 ^ 64) ∧
      ∃ z, pylongInvert twoPow64 = some z ∧ Canonical z ∧ val z = -2 ^ 64 - 1 :=
  add_family_exact twoPow64 ⟨-1, [1]⟩ twoPow64_canonical
    ((pylongVerifyInvariants_iff (by decide)).mp (by decide))

end Signed

end Csapp.Bignum
