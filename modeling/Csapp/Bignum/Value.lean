import Csapp.Bignum.PyLong
import Csapp.Lib.Digits

/-!
# Bignum.Value — the integer an object stands for

`val op` is the integer, `magnitude op` its absolute value, and `Canonical op` the form every object
is kept in: digits below the base and no zero at the top (`pylong_verify_invariants`).  Here are also
the digit accessors on canonical objects and the two loops that run from the top down: `pylong_clamp`
restores the form, `pylong_compare_magnitude` compares magnitudes.
-/

namespace Csapp.Bignum

open Csapp.Lib

/-- The digits in use. -/
def PyLongObject.digits (op : PyLongObject) : List ℕ := op.obDigit.take op.absSize

def magnitude (op : PyLongObject) : ℕ := Nat.ofDigits base op.digits

/-- The number the lowest `i` digits stand for. -/
def low (op : PyLongObject) (i : ℕ) : ℕ := Nat.ofDigits base (op.digits.take i)

/-- The integer value. -/
def val (op : PyLongObject) : ℤ := if op.obSize < 0 then -(magnitude op : ℤ) else magnitude op

/-- The array holds the digits that `ob_size` counts, and these are below the base. -/
structure Bounded (op : PyLongObject) : Prop where
  fits : op.absSize ≤ op.obDigit.length
  lt : ∀ d ∈ op.digits, d < base

/-- The unique form of an integer. -/
structure Canonical (op : PyLongObject) : Prop extends Bounded op where
  top : ∀ n, op.absSize = n + 1 → op.obDigit[n]? ≠ some 0

section Access

variable {op z : PyLongObject} {i d : ℕ}

theorem Bounded.length_digits (h : Bounded op) : op.digits.length = op.absSize :=
  List.length_take_of_le h.fits

/-- Reading a digit in use. -/
theorem Bounded.digitAt (h : Bounded op) (hi : i < op.absSize) :
    ∃ hl : i < op.digits.length, op.digitAt i = some op.digits[i] ∧ op.digits[i] < base := by
  have hl : i < op.digits.length := by rw [h.length_digits]; exact hi
  refine ⟨hl, ?_, h.lt _ (List.getElem_mem hl)⟩
  have hf := h.fits
  simp only [PyLongObject.digitAt, PyLongObject.digits, List.getElem_take]
  exact List.getElem?_eq_getElem (by omega)

theorem setDigit_eq (hi : i < z.obDigit.length) :
    z.setDigit i d = some { z with obDigit := z.obDigit.set i d } := if_pos hi

theorem low_zero (op : PyLongObject) : low op 0 = 0 := rfl

theorem low_succ (hl : i < op.digits.length) :
    low op (i + 1) = low op i + base ^ i * op.digits[i] := ofDigits_take_succ hl

/-- All digits in use make up the magnitude. -/
theorem Bounded.low_eq (h : Bounded op) {n : ℕ} (hn : op.absSize ≤ n) : low op n = magnitude op := by
  rw [low, magnitude, List.take_of_length_le (by rw [h.length_digits]; exact hn)]

theorem Bounded.low_lt (h : Bounded op) (hi : i ≤ op.absSize) : low op i < base ^ i := by
  have := Nat.ofDigits_lt_base_pow_length (b := base) (l := op.digits.take i) (by decide)
    fun d hd => h.lt d (List.mem_of_mem_take hd)
  rwa [List.length_take_of_le (by rw [h.length_digits]; exact hi)] at this

theorem Bounded.magnitude_lt (h : Bounded op) : magnitude op < base ^ op.absSize := by
  rw [← h.low_eq le_rfl]
  exact h.low_lt le_rfl

theorem Canonical.pow_le (h : Canonical op) {n : ℕ} (hn : op.absSize = n + 1) :
    base ^ n ≤ magnitude op := by
  obtain ⟨hl, h1, h2⟩ := h.digitAt (i := n) (by omega)
  have h0 : op.digits[n] ≠ 0 := fun e => h.top n hn (by rw [← e]; exact h1)
  rw [← h.low_eq (le_of_eq hn)]
  exact pow_le_ofDigits hl h0

/-- A canonical object has value 0 iff its size is 0. -/
theorem Canonical.magnitude_pos (h : Canonical op) (h0 : op.obSize ≠ 0) : 0 < magnitude op := by
  obtain ⟨n, hn⟩ : ∃ n, op.absSize = n + 1 := ⟨op.absSize - 1, by
    unfold PyLongObject.absSize; omega⟩
  exact lt_of_lt_of_le (Nat.pos_of_ne_zero (by positivity)) (h.pow_le hn)

theorem magnitude_zero (h0 : op.obSize = 0) : magnitude op = 0 := by
  simp [magnitude, PyLongObject.digits, PyLongObject.absSize, h0]

/-- The magnitude is the absolute value. -/
theorem val_natAbs (op : PyLongObject) : (val op).natAbs = magnitude op := by
  unfold val; split_ifs <;> simp

end Access

/-! ## Arrays filled from the bottom -/

section Fill

variable {z : PyLongObject} {n i d : ℕ}

/-- The first `i` of `n` digits have been written. -/
structure Filled (z : PyLongObject) (n i : ℕ) : Prop where
  len : z.obDigit.length = n
  lt : ∀ d ∈ z.obDigit.take i, d < base

/-- The number the first `i` digits of the array stand for. -/
def stored (z : PyLongObject) (i : ℕ) : ℕ := Nat.ofDigits base (z.obDigit.take i)

theorem pylongAlloc_filled (n : ℕ) : Filled (pylongAlloc n) n 0 := ⟨by simp [pylongAlloc], by simp⟩

theorem stored_zero (z : PyLongObject) : stored z 0 = 0 := rfl

/-- Writing the next digit. -/
theorem Filled.setDigit (h : Filled z n i) (hi : i < n) (hd : d < base) :
    ∃ z', z.setDigit i d = some z' ∧ Filled z' n (i + 1) ∧
      stored z' (i + 1) = stored z i + base ^ i * d := by
  have hl : i < z.obDigit.length := by rw [h.len]; exact hi
  refine ⟨_, setDigit_eq hl, ⟨by simp [h.len], fun e he => ?_⟩, ofDigits_take_set hl⟩
  rw [take_succ_set hl, List.mem_append, List.mem_singleton] at he
  rcases he with he | rfl
  · exact h.lt e he
  · exact hd

theorem Filled.stored_lt (h : Filled z n i) (hi : i ≤ n) : stored z i < base ^ i := by
  have := Nat.ofDigits_lt_base_pow_length (b := base) (by decide) h.lt
  rwa [List.length_take_of_le (by rw [h.len]; exact hi)] at this

/-- The written digits as an object of size `± i`. -/
theorem Filled.bounded (h : Filled z n i) (hi : i ≤ n) {size : ℤ} (hs : size.natAbs = i) :
    Bounded { z with obSize := size } ∧ magnitude { z with obSize := size } = stored z i := by
  refine ⟨⟨?_, ?_⟩, ?_⟩
  · show size.natAbs ≤ z.obDigit.length
    rw [hs, h.len]; exact hi
  · show ∀ d ∈ z.obDigit.take size.natAbs, d < base
    rw [hs]; exact h.lt
  · show Nat.ofDigits base (z.obDigit.take size.natAbs) = _
    rw [hs]; rfl

end Fill

/-! ## `pylong_verify_invariants` -/

/-- The digit loop of the checker. -/
theorem verifyLoop_spec {op : PyLongObject} (hf : op.absSize ≤ op.obDigit.length) :
    ∃ ok, forRange 0 op.absSize (verifyBody op) true = some ok ∧
      (ok = true ↔ ∀ d ∈ op.digits, d < base) := by
  have hlen : op.digits.length = op.absSize := List.length_take_of_le hf
  have hstep : ∀ i ok, 0 ≤ i → i < op.absSize → (ok = true ↔ ∀ d ∈ op.digits.take i, d < base) →
      ∃ ok', verifyBody op i ok = some ok' ∧ (ok' = true ↔ ∀ d ∈ op.digits.take (i + 1), d < base) := by
    intro i ok _ hi hok
    have hl : i < op.digits.length := by omega
    have hd : op.digitAt i = some op.digits[i] := by
      simp only [PyLongObject.digitAt, PyLongObject.digits, List.getElem_take]
      exact List.getElem?_eq_getElem (by omega)
    refine ⟨_, by simp only [verifyBody, hd]; rfl, ?_⟩
    rw [Bool.and_eq_true, hok, decide_eq_true_eq, List.take_succ_eq_append_getElem hl]
    simp only [List.mem_append, List.mem_singleton, or_imp, forall_and, forall_eq]
    exact and_congr_right fun _ => by unfold baseMask base; omega
  obtain ⟨ok, h1, h2⟩ := forRange_inv (s := true) (verifyBody op)
    (fun i ok => ok = true ↔ ∀ d ∈ op.digits.take i, d < base) (Nat.zero_le _) (by simp) hstep
  exact ⟨ok, h1, by rw [h2, ← hlen, List.take_length]⟩

/-- The checker of the source tests for the canonical form. -/
theorem pylongVerifyInvariants_iff {op : PyLongObject} (hf : op.absSize ≤ op.obDigit.length) :
    pylongVerifyInvariants op = some true ↔ Canonical op := by
  obtain ⟨ok, h1, h2⟩ := verifyLoop_spec hf
  by_cases h0 : op.obSize = 0
  · have habs : op.absSize = 0 := by simp [PyLongObject.absSize, h0]
    refine iff_of_true (by simp [pylongVerifyInvariants, h0]) ⟨⟨hf, ?_⟩, fun n hn => by omega⟩
    simp [PyLongObject.digits, habs]
  · obtain ⟨n, hn⟩ : ∃ n, op.absSize = n + 1 := ⟨op.absSize - 1, by
      unfold PyLongObject.absSize; omega⟩
    have hd : op.digitAt n = some op.obDigit[n] := List.getElem?_eq_getElem (by omega)
    have hver : pylongVerifyInvariants op = some (if op.obDigit[n] = 0 then false else ok) := by
      simp only [pylongVerifyInvariants, if_neg h0, hn, Nat.add_sub_cancel, hd,
        Option.bind_eq_bind, Option.bind_some]
      rw [hn] at h1
      split_ifs
      · rfl
      · exact h1
    rw [hver]
    have htop : (∀ m, op.absSize = m + 1 → op.obDigit[m]? ≠ some 0) ↔ op.obDigit[n] ≠ 0 := by
      constructor
      · exact fun h e => h n hn (by rw [← e]; exact hd)
      · intro h m hm e
        obtain rfl : n = m := by omega
        rw [List.getElem?_eq_getElem (by omega)] at e
        exact h (Option.some.inj e)
    constructor
    · intro h
      by_cases hz : op.obDigit[n] = 0
      · rw [if_pos hz] at h; exact absurd h (by simp)
      · rw [if_neg hz] at h
        exact ⟨⟨hf, h2.mp (Option.some.inj h)⟩, htop.mpr hz⟩
    · intro h
      rw [if_neg (htop.mp h.top), h2.mpr h.lt]

/-! ## `pylong_clamp` -/

section Clamp

variable {op : PyLongObject}

/-- The loop keeps the value of the digits and ends at a non-zero one. -/
theorem clampLoop_spec : ∀ n ≤ op.obDigit.length, ∃ k ≤ n, clampLoop op n = some k ∧
    Nat.ofDigits base (op.obDigit.take k) = Nat.ofDigits base (op.obDigit.take n) ∧
      ∀ l, k = l + 1 → op.obDigit[l]? ≠ some 0
  | 0, _ => ⟨0, le_rfl, rfl, rfl, fun l hl => by omega⟩
  | n + 1, hn => by
    have hlt : n < op.obDigit.length := hn
    have hd : op.digitAt n = some op.obDigit[n] := List.getElem?_eq_getElem hlt
    by_cases h0 : op.obDigit[n] = 0
    · obtain ⟨k, h1, h2, h3, h4⟩ := clampLoop_spec n (by omega)
      refine ⟨k, by omega, ?_, ?_, h4⟩
      · simp [clampLoop, hd, h0, h2]
      · rw [h3, ofDigits_take_succ hlt, h0, Nat.mul_zero, Nat.add_zero]
    · refine ⟨n + 1, le_rfl, ?_, rfl, fun l hl => ?_⟩
      · simp [clampLoop, hd, h0]
      · obtain rfl : n = l := by omega
        rw [List.getElem?_eq_getElem hlt]
        exact fun e => h0 (Option.some.inj e)

/-- **`pylong_clamp`** keeps the value and restores the form. -/
theorem pylongClamp_spec (h : Bounded op) :
    ∃ op', pylongClamp op = some op' ∧ Canonical op' ∧ val op' = val op ∧
      (0 ≤ op.obSize → 0 ≤ op'.obSize) := by
  obtain ⟨k, hk, h1, h2, h3⟩ := clampLoop_spec op.absSize h.fits
  set size : ℤ := if k = 0 then 0 else if op.obSize < 0 then -(k : ℤ) else k with hsize
  have hop : pylongClamp op = some { op with obSize := size } := by simp [pylongClamp, h1, hsize]
  have habs : size.natAbs = k := by rw [hsize]; split_ifs <;> omega
  have hmag : magnitude { op with obSize := size } = magnitude op := by
    simp only [magnitude, PyLongObject.digits, PyLongObject.absSize, habs]
    exact h2
  refine ⟨_, hop, ⟨⟨?_, fun d hd => ?_⟩, fun n hn => h3 n (habs.symm.trans hn)⟩, ?_, fun h0 => ?_⟩
  · show size.natAbs ≤ op.obDigit.length
    rw [habs]; exact le_trans hk h.fits
  · refine h.lt d (List.mem_of_mem_take (i := k) ?_)
    rw [PyLongObject.digits, List.take_take, min_eq_left hk]
    rwa [PyLongObject.digits, show PyLongObject.absSize { op with obSize := size } = k from habs] at hd
  · -- the sign is kept unless the value is 0
    rw [val, val, hmag]
    by_cases hk0 : k = 0
    · have hm0 : magnitude op = 0 := by
        rw [magnitude, PyLongObject.digits, ← h2, hk0]; rfl
      rw [hm0]; simp
    · have : size < 0 ↔ op.obSize < 0 := by rw [hsize, if_neg hk0]; split_ifs <;> omega
      simp only [this]
  · show 0 ≤ size
    rw [hsize]; split_ifs <;> omega

end Clamp

/-! ## `pylong_compare_magnitude` -/

section Compare

variable {a b : PyLongObject}

/-- The loop decides by the highest digit that differs. -/
theorem compareLoop_spec (ha : Bounded a) (hb : Bounded b) : ∀ i ≤ a.absSize, i ≤ b.absSize →
    compareLoop a b i = some (Int.sign ((low a i : ℤ) - low b i))
  | 0, _, _ => by simp [compareLoop, low_zero]
  | i + 1, hia, hib => by
    obtain ⟨hla, hda, hxa⟩ := ha.digitAt (i := i) (by omega)
    obtain ⟨hlb, hdb, hxb⟩ := hb.digitAt (i := i) (by omega)
    have hpa := ha.low_lt (i := i) (by omega)
    have hpb := hb.low_lt (i := i) (by omega)
    have ih := compareLoop_spec ha hb i (by omega) (by omega)
    simp only [compareLoop, hda, hdb, Option.bind_eq_bind, Option.bind_some]
    rw [low_succ hla, low_succ hlb]
    set x := a.digits[i]
    set y := b.digits[i]
    rcases lt_trichotomy x y with h | h | h
    · have hlt : low a i + base ^ i * x < low b i + base ^ i * y := by
        have : base ^ i * (x + 1) ≤ base ^ i * y := Nat.mul_le_mul_left _ h
        rw [Nat.mul_add, Nat.mul_one] at this
        omega
      rw [if_neg (by omega), if_pos h, Int.sign_eq_neg_one_of_neg (by omega)]
      rfl
    · rw [if_neg (by omega), if_neg (by omega), ih, h]
      congr 2
      push_cast
      ring
    · have hlt : low b i + base ^ i * y < low a i + base ^ i * x := by
        have : base ^ i * (y + 1) ≤ base ^ i * x := Nat.mul_le_mul_left _ h
        rw [Nat.mul_add, Nat.mul_one] at this
        omega
      rw [if_pos h, Int.sign_eq_one_of_pos (by omega)]
      rfl

/-- More digits, larger magnitude. -/
theorem Canonical.magnitude_lt_of_size (ha : Canonical a) (hb : Bounded b)
    (h : b.absSize < a.absSize) : magnitude b < magnitude a := by
  obtain ⟨n, hn⟩ : ∃ n, a.absSize = n + 1 := ⟨a.absSize - 1, by omega⟩
  calc magnitude b < base ^ b.absSize := hb.magnitude_lt
    _ ≤ base ^ n := Nat.pow_le_pow_right (by decide) (by omega)
    _ ≤ magnitude a := ha.pow_le hn

/-- **`pylong_compare_magnitude`** is the sign of the difference of the magnitudes. -/
theorem pylongCompareMagnitude_spec (ha : Canonical a) (hb : Canonical b) :
    pylongCompareMagnitude a b = some (Int.sign ((magnitude a : ℤ) - magnitude b)) := by
  unfold pylongCompareMagnitude
  rcases lt_trichotomy a.absSize b.absSize with h | h | h
  · have := hb.magnitude_lt_of_size ha.toBounded h
    rw [if_neg (by omega), if_pos h, Int.sign_eq_neg_one_of_neg (by omega)]
  · rw [if_neg (by omega), if_neg (by omega),
      compareLoop_spec ha.toBounded hb.toBounded _ le_rfl (by omega), ha.low_eq le_rfl,
      hb.low_eq (by omega)]
  · have := ha.magnitude_lt_of_size hb.toBounded h
    rw [if_pos h, Int.sign_eq_one_of_pos (by omega)]

end Compare

end Csapp.Bignum
