import Csapp.Bignum.Value

/-!
# Bignum.Convert — conversion from and to `int64_t`

`pylongFromInt64_spec`: every 64-bit integer is converted exactly.  `pylong_to_int64` shifts the digits
into a 64-bit register, so for three digits it sees the magnitude modulo `2 ^ 64`
(`toInt64Loop_spec`): a magnitude of `2 ^ 64` or more is not noticed when its low 64 bits look like a
value in range.  `toInt64Exact_iff` says for which values the conversion is exact.
-/

namespace Csapp.Bignum

open Csapp.Lib

/-- The mask keeps the low 30 bits. -/
theorem and_baseMask (x : ℕ) : x &&& baseMask = x % base := Nat.and_two_pow_sub_one_eq_mod x 30

theorem toDigit_mod_base (x : ℕ) : toDigit (x % base) = x % base := by
  unfold toDigit base; omega

theorem shiftRight_bits (x : ℕ) : x >>> bitsInDigit = x / base := Nat.shiftRight_eq_div_pow x 30

/-! ## `pylong_from_int64` -/

section From

/-- The loop has moved `count` digits of `u` into the array. -/
structure FromInv (u : ℕ) (s : FromState) : Prop where
  filled : Filled s.op 3 s.count
  count_le : s.count ≤ 3
  value : stored s.op s.count + base ^ s.count * s.uval = u

theorem fromInt64Body_spec {u : ℕ} (hu : u < 2 ^ 64) {s : FromState} (h : FromInv u s)
    (hc : 0 < s.uval) : ∃ s', fromInt64Body s = some s' ∧ FromInv u s' ∧ 3 - s'.count < 3 - s.count := by
  -- a fourth digit would stand for at least `2 ^ 90`
  have hlt : s.count < 3 := by
    by_contra hge
    have h3 : s.count = 3 := by have := h.count_le; omega
    have hv := h.value
    rw [h3] at hv
    have : base ^ 3 * 1 ≤ base ^ 3 * s.uval := Nat.mul_le_mul_left _ hc
    have : 2 ^ 64 < base ^ 3 := by decide
    omega
  obtain ⟨op, h1, h2, h3⟩ := h.filled.setDigit hlt (Nat.mod_lt s.uval (by decide : base > 0))
  refine ⟨⟨s.count + 1, s.uval / base, op⟩, ?_, ⟨h2, hlt, ?_⟩, ?_⟩
  · simp only [fromInt64Body, and_baseMask, toDigit_mod_base, shiftRight_bits, h1]
    rfl
  · calc stored op (s.count + 1) + base ^ (s.count + 1) * (s.uval / base)
        = stored s.op s.count + base ^ s.count * (s.uval % base + base * (s.uval / base)) := by
          rw [h3, pow_succ]; ring
      _ = u := by rw [Nat.mod_add_div, h.value]
  · show 3 - (s.count + 1) < 3 - s.count
    omega

/-- The magnitude of a non-zero `int64_t`, as the code computes it. -/
theorem uval_eq {v : ℤ} (hlo : -2 ^ 63 ≤ v) (hhi : v < 2 ^ 63) :
    (if v < 0 then u64 (2 ^ 64 - toU64 v) else toU64 v) = v.natAbs ∧ v.natAbs < 2 ^ 64 := by
  unfold u64 toU64
  refine ⟨?_, by omega⟩
  split_ifs <;> omega

/-- **`pylong_from_int64`** is exact. -/
theorem pylongFromInt64_spec {v : ℤ} (hlo : -2 ^ 63 ≤ v) (hhi : v < 2 ^ 63) :
    ∃ op, pylongFromInt64 v = some op ∧ Canonical op ∧ val op = v := by
  by_cases h0 : v = 0
  · refine ⟨pylongAlloc 0, by simp [pylongFromInt64, h0], ⟨⟨by simp [pylongAlloc, PyLongObject.absSize],
      by simp [pylongAlloc, PyLongObject.digits]⟩, fun n hn => ?_⟩, ?_⟩
    · simp [pylongAlloc, PyLongObject.absSize] at hn
    · rw [h0]; rfl
  · obtain ⟨hu, hlt⟩ := uval_eq hlo hhi
    obtain ⟨s, h1, h2, h3⟩ := whileLoop_inv (fun s => decide (0 < s.uval)) fromInt64Body
      (FromInv v.natAbs) (fun s => 3 - s.count)
      (fun s hs hc => fromInt64Body_spec hlt hs (by simpa using hc)) 64
      ⟨0, v.natAbs, pylongAlloc 3⟩ ⟨pylongAlloc_filled 3, by simp, by simp [stored_zero]⟩ (by simp)
    have hu0 : s.uval = 0 := by simpa using h3
    have hval := h2.value
    rw [hu0, Nat.mul_zero, Nat.add_zero] at hval
    -- the digits as an object with the sign of `v`
    set size : ℤ := if v < 0 then -(s.count : ℤ) else s.count with hsize
    have habs : size.natAbs = s.count := by rw [hsize]; split_ifs <;> simp
    obtain ⟨hb, hmag⟩ := h2.filled.bounded h2.count_le habs
    rw [hval] at hmag
    obtain ⟨op, h4, h5, h6, -⟩ := pylongClamp_spec hb
    refine ⟨op, ?_, h5, ?_⟩
    · simp only [pylongFromInt64, if_neg h0, hu, h1, Option.bind_eq_bind, Option.bind_some, ← hsize, h4]
    · rw [h6, val, hmag]
      have hc : s.count ≠ 0 := fun hc => by
        rw [hc, stored_zero] at hval
        omega
      have hneg : size < 0 ↔ v < 0 := by rw [hsize]; split_ifs <;> omega
      simp only [hneg]
      split_ifs <;> omega

end From

/-! ## `pylong_to_int64` -/

section To

variable {op : PyLongObject}

/-- One shift of the register: a digit comes in at the bottom, the top is lost. -/
theorem shift_in {u d : ℕ} (hd : d < base) :
    u64 (u <<< bitsInDigit) ||| d = (u * base + d) % 2 ^ 64 := by
  have h1 : u64 (u <<< bitsInDigit) = 2 ^ 30 * (u % 2 ^ 34) := by
    rw [u64, Nat.shiftLeft_eq, Nat.mul_comm, show (2 : ℕ) ^ 64 = 2 ^ 30 * 2 ^ 34 from by norm_num]
    exact Nat.mul_mod_mul_left _ _ _
  rw [h1, ← Nat.two_pow_add_eq_or_of_lt hd]
  unfold base at *
  omega

/-- The register holds the digits modulo `2 ^ 64`. -/
theorem toInt64Loop_spec (h : Bounded op) : ∀ i ≤ op.absSize, ∀ u < 2 ^ 64,
    toInt64Loop op i u = some ((u * base ^ i + low op i) % 2 ^ 64)
  | 0, _, u, hu => by
    rw [toInt64Loop, low_zero, pow_zero, Nat.mul_one, Nat.add_zero, Nat.mod_eq_of_lt hu]
  | i + 1, hi, u, hu => by
    obtain ⟨hl, hd, hlt⟩ := h.digitAt (i := i) (by omega)
    have hmod : (u * base + op.digits[i]) % 2 ^ 64 < 2 ^ 64 := Nat.mod_lt _ (by norm_num)
    simp only [toInt64Loop, hd, Option.bind_eq_bind, Option.bind_some, shift_in hlt]
    rw [toInt64Loop_spec h i (by omega) _ hmod, low_succ hl]
    congr 1
    calc ((u * base + op.digits[i]) % 2 ^ 64 * base ^ i + low op i) % 2 ^ 64
        = ((u * base + op.digits[i]) * base ^ i + low op i) % 2 ^ 64 := by
          rw [Nat.add_mod, Nat.mod_mul_mod, ← Nat.add_mod]
      _ = (u * base ^ (i + 1) + (low op i + base ^ i * op.digits[i])) % 2 ^ 64 := by
          congr 1; rw [pow_succ]; ring

/-- `int64_t` holds `v`. -/
def InInt64 (v : ℤ) : Prop := -2 ^ 63 ≤ v ∧ v ≤ 2 ^ 63 - 1

/-- What a conversion of `op` ought to do: succeed exactly for values in range, with that value. -/
def ToInt64Exact (op : PyLongObject) (out : ℤ) : Prop :=
  ∃ r o, pylongToInt64 op out = some (r, o) ∧ (r = 0 ↔ InInt64 (val op)) ∧
    (InInt64 (val op) → o = val op) ∧ (¬ InInt64 (val op) → r = -1)

/-- A magnitude of 65 to 90 bits whose low 64 bits look like a value in range. -/
def WrapsIntoRange (v : ℤ) : Prop :=
  2 ^ 64 ≤ v.natAbs ∧ v.natAbs < 2 ^ 90 ∧
    (v.natAbs % 2 ^ 64 < 2 ^ 63 ∨ (v < 0 ∧ v.natAbs % 2 ^ 64 = 2 ^ 63))

/-- At most three digits is less than `2 ^ 90`. -/
theorem Canonical.absSize_le_three (h : Canonical op) : op.absSize ≤ 3 ↔ magnitude op < 2 ^ 90 := by
  constructor
  · intro h3
    calc magnitude op < base ^ op.absSize := h.magnitude_lt
      _ ≤ base ^ 3 := Nat.pow_le_pow_right (by decide) h3
      _ = 2 ^ 90 := by norm_num
  · intro hlt
    by_contra hc
    obtain ⟨n, hn⟩ : ∃ n, op.absSize = n + 1 := ⟨op.absSize - 1, by omega⟩
    have h1 := h.pow_le hn
    have h2 : base ^ 3 ≤ base ^ n := Nat.pow_le_pow_right (by decide) (by omega)
    have h3 : base ^ 3 = 2 ^ 90 := by norm_num
    omega

/-- **`pylong_to_int64`** on a canonical object: it looks at the low 64 bits of the magnitude. -/
theorem pylongToInt64_eq (h : Canonical op) (out : ℤ) :
    pylongToInt64 op out = some (
      if op.obSize = 0 then (0, 0)
      else if 2 ^ 90 ≤ magnitude op then (-1, out)
      else if op.obSize > 0 then
        if magnitude op % 2 ^ 64 > 2 ^ 63 - 1 then (-1, out) else (0, (magnitude op % 2 ^ 64 : ℕ))
      else if magnitude op % 2 ^ 64 > 2 ^ 63 then (-1, out)
      else (0, -(magnitude op % 2 ^ 64 : ℕ))) := by
  unfold pylongToInt64
  have h3 := h.absSize_le_three
  by_cases h0 : op.obSize = 0
  · rw [if_pos h0, if_pos h0]
  · rw [if_neg h0, if_neg h0]
    by_cases hn : op.absSize > 3
    · rw [if_pos hn, if_pos (by omega)]
    · have hloop := toInt64Loop_spec h.toBounded op.absSize le_rfl 0 (by norm_num)
      rw [Nat.zero_mul, Nat.zero_add, h.low_eq le_rfl] at hloop
      rw [if_neg hn, if_neg (by omega), hloop]
      simp only [Option.bind_eq_bind, Option.bind_some]
      set M := magnitude op % 2 ^ 64 with hM
      unfold toS64
      by_cases hpos : op.obSize > 0
      · rw [if_pos hpos, if_pos hpos]
        by_cases hM1 : M > 2 ^ 63 - 1
        · rw [if_pos hM1, if_pos hM1]; rfl
        · rw [if_neg hM1, if_neg hM1, if_pos (by omega)]; rfl
      · rw [if_neg hpos, if_neg hpos]
        by_cases hM1 : M > 2 ^ 63
        · rw [if_pos hM1, if_pos hM1]; rfl
        · rw [if_neg hM1, if_neg hM1]
          by_cases hM2 : M = 2 ^ 63
          · rw [if_pos hM2, hM2]; rfl
          · rw [if_neg hM2, if_pos (by omega)]; rfl

/-- The sign of a canonical object is the sign of its size. -/
theorem Canonical.obSize_pos (h : Canonical op) : 0 < op.obSize ↔ 0 < val op := by
  have hm := h.magnitude_pos
  have h0 : op.obSize = 0 → magnitude op = 0 := magnitude_zero
  unfold val
  split_ifs <;> omega

theorem Canonical.obSize_eq_zero (h : Canonical op) : op.obSize = 0 ↔ val op = 0 := by
  have hm := h.magnitude_pos
  have h0 : op.obSize = 0 → magnitude op = 0 := magnitude_zero
  unfold val
  split_ifs <;> omega

/-- What exactness says of the result. -/
theorem toInt64Exact_of_eq {out : ℤ} {p : ℤ × ℤ} (h : pylongToInt64 op out = some p) :
    ToInt64Exact op out ↔ (p.1 = 0 ↔ InInt64 (val op)) ∧ (InInt64 (val op) → p.2 = val op) ∧
      (¬ InInt64 (val op) → p.1 = -1) := by
  constructor
  · rintro ⟨r, o, he, hx⟩
    obtain rfl : p = (r, o) := Option.some.inj (h.symm.trans he)
    exact hx
  · exact fun hx => ⟨p.1, p.2, h, hx⟩

/-- One object: the conversion is exact unless the magnitude wraps into the range. -/
theorem toInt64Exact_iff (h : Canonical op) (out : ℤ) :
    ToInt64Exact op out ↔ ¬ WrapsIntoRange (val op) := by
  have heq := pylongToInt64_eq h out
  simp only [← val_natAbs, h.obSize_eq_zero, gt_iff_lt, h.obSize_pos] at heq
  rw [toInt64Exact_of_eq heq]
  unfold WrapsIntoRange InInt64
  generalize val op = v
  split_ifs <;> dsimp only <;> omega

/-- **`int64_t` conversion**: `pylong_to_int64` is exact on a canonical object iff its magnitude does not
wrap into the range; `pylong_from_int64` is exact on every `int64_t`, and `pylong_to_int64` undoes it. -/
theorem int64_conversion (op : PyLongObject) (h : Canonical op) (out v : ℤ) (hv : InInt64 v) :
    (ToInt64Exact op out ↔ ¬ WrapsIntoRange (val op)) ∧
      ∃ op', pylongFromInt64 v = some op' ∧ Canonical op' ∧ val op' = v ∧
        pylongToInt64 op' out = some (0, v) := by
  refine ⟨toInt64Exact_iff h out, ?_⟩
  obtain ⟨op', h1, h2, h3⟩ := pylongFromInt64_spec hv.1 (by have := hv.2; omega)
  refine ⟨op', h1, h2, h3, ?_⟩
  have hw : ¬ WrapsIntoRange (val op') := fun hw => by
    have := hw.1
    have := hv.1
    have := hv.2
    omega
  obtain ⟨r, o, h4, h5, h6, -⟩ := (toInt64Exact_iff h2 out).mpr hw
  rw [h3] at h5 h6
  rw [h4, h5.mpr hv, h6 hv]

/-- `2 ^ 64`: the third digit is `16`. -/
def twoPow64 : PyLongObject := ⟨3, [0, 0, 16]⟩

theorem twoPow64_canonical : Canonical twoPow64 :=
  (pylongVerifyInvariants_iff (by decide)).mp (by decide)

theorem int64_conversion_sample :
    (ToInt64Exact twoPow64 77 ↔ ¬ WrapsIntoRange (2 ^ 64)) ∧
      ∃ op, pylongFromInt64 (-2 ^ 63) = some op ∧ Canonical op ∧ val op = -2 ^ 63 ∧
        pylongToInt64 op 77 = some (0, -2 ^ 63) :=
  int64_conversion twoPow64 twoPow64_canonical 77 (-2 ^ 63) (by unfold InInt64; omega)

/-- `pylong_to_int64` reports success for `2 ^ 64` and stores 0. -/
theorem twoPow64_accepted : Canonical twoPow64 ∧ val twoPow64 = 2 ^ 64 ∧
    pylongToInt64 twoPow64 77 = some (0, 0) ∧ ¬ ToInt64Exact twoPow64 77 := by
  have hr : pylongToInt64 twoPow64 77 = some (0, 0) := by decide
  have hv : val twoPow64 = 2 ^ 64 := by decide
  refine ⟨twoPow64_canonical, hv, hr, ?_⟩
  rw [toInt64Exact_of_eq hr, hv]
  unfold InInt64
  omega

end To

end Csapp.Bignum
