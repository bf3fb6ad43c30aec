import Csapp.Bignum.Arith

/-!
# Bignum.Mul — schoolbook multiplication

`MulReach a b` are the states in which `pylong_mul` tests the condition of its inner loop.  In each of
them the array, with the carry at its place, holds the rows that are done and the part of the current
row that is (`MulInv`).  A carry at place `i + j` therefore counts for at least `base ^ (i + j)` in a
number below `base ^ (i + 1 + nb)`, which is why the carry-only rounds stay inside the array.
-/

namespace Csapp.Bignum

open Csapp.Lib

variable {a b : PyLongObject} {s s' : MulState}

/-- The states at the head of the inner loop, over all rows. -/
inductive MulReach (a b : PyLongObject) : MulState → Prop
  | start : a.obSize ≠ 0 → b.obSize ≠ 0 →
      MulReach a b ⟨0, 0, 0, pylongAlloc (a.absSize + b.absSize)⟩
  | inner {s s' : MulState} : MulReach a b s → mulCond b s = true → mulBody a b s = some s' →
      MulReach a b s'
  | outer {s : MulState} : MulReach a b s → mulCond b s = false → s.i + 1 < a.absSize →
      MulReach a b ⟨s.i + 1, 0, 0, s.z⟩

/-- `ai` is the digit of the current row; rows below `i` and `j` digits of row `i` are accumulated. -/
structure MulInv (a b : PyLongObject) (ai : ℕ) (s : MulState) : Prop where
  i_lt : s.i < a.absSize
  digit : a.digitAt s.i = some ai
  ai_lt : ai < base
  row : low a (s.i + 1) = low a s.i + base ^ s.i * ai
  len : s.z.obDigit.length = a.absSize + b.absSize
  lt : ∀ d ∈ s.z.obDigit, d < base
  carry_lt : s.carry < base
  value : Nat.ofDigits base s.z.obDigit + base ^ (s.i + s.j) * s.carry =
    low a s.i * magnitude b + base ^ s.i * ai * low b s.j

/-- A row begins. -/
theorem MulInv.begin (ha : Bounded a) {i : ℕ} {z : PyLongObject} (hi : i < a.absSize)
    (hlen : z.obDigit.length = a.absSize + b.absSize) (hlt : ∀ d ∈ z.obDigit, d < base)
    (hv : Nat.ofDigits base z.obDigit = low a i * magnitude b) :
    ∃ ai, MulInv a b ai ⟨i, 0, 0, z⟩ := by
  obtain ⟨hl, hd, hx⟩ := ha.digitAt hi
  exact ⟨_, hi, hd, hx, low_succ hl, hlen, hlt, Nat.two_pow_pos 30, by rw [hv, low_zero]; simp⟩

/-- The next round writes inside the array. -/
theorem MulInv.index_lt (ha : Bounded a) (hb : Bounded b) {ai : ℕ} (h : MulInv a b ai s)
    (hc : mulCond b s = true) : s.i + s.j < a.absSize + b.absSize := by
  have hi := h.i_lt
  by_cases hj : s.j < b.absSize
  · omega
  have hpos : 0 < s.carry := by
    rw [mulCond, decide_eq_true_eq] at hc
    exact hc.resolve_left hj
  have hpow : base ^ (s.i + s.j) < base ^ (a.absSize + b.absSize) :=
    calc base ^ (s.i + s.j) ≤ base ^ (s.i + s.j) * s.carry := Nat.le_mul_of_pos_right _ hpos
      _ ≤ low a s.i * magnitude b + base ^ s.i * ai * low b s.j := by rw [← h.value]; omega
      _ = low a (s.i + 1) * magnitude b := by rw [hb.low_eq (not_lt.mp hj), h.row]; ring
      _ < base ^ (s.i + 1) * base ^ b.absSize :=
        Nat.mul_lt_mul'' (ha.low_lt h.i_lt) hb.magnitude_lt
      _ ≤ base ^ (a.absSize + b.absSize) := by
        rw [← pow_add]; exact Nat.pow_le_pow_right (by decide) (by omega)
  exact (Nat.pow_lt_pow_iff_right (by decide)).mp hpow

/-- `prod` of one round: it fits twice the digit width and extends the row. -/
theorem MulInv.prod (ha : Bounded a) (hb : Bounded b) {ai : ℕ} (h : MulInv a b ai s)
    (hc : mulCond b s = true) :
    ∃ hk : s.i + s.j < s.z.obDigit.length, ∃ p, mulProd a b s = some p ∧ p < base * base ∧
      base ^ (s.i + s.j) * p + base ^ s.i * ai * low b s.j =
        base ^ (s.i + s.j) * (s.z.obDigit[s.i + s.j] + s.carry) +
          base ^ s.i * ai * low b (s.j + 1) := by
  have hk : s.i + s.j < s.z.obDigit.length := by rw [h.len]; exact h.index_lt ha hb hc
  have hz : s.z.digitAt (s.i + s.j) = some s.z.obDigit[s.i + s.j] := List.getElem?_eq_getElem hk
  have hzlt : s.z.obDigit[s.i + s.j] < base := h.lt _ (List.getElem_mem hk)
  have hclt := h.carry_lt
  refine ⟨hk, ?_⟩
  by_cases hj : s.j < b.absSize
  · obtain ⟨hl, hd, hx⟩ := hb.digitAt hj
    refine ⟨_, by simp only [mulProd, h.digit, hz, hd, if_pos hj]; rfl, ?_, ?_⟩
    · have : ai * b.digits[s.j] ≤ (base - 1) * (base - 1) :=
        Nat.mul_le_mul (Nat.le_sub_one_of_lt h.ai_lt) (Nat.le_sub_one_of_lt hx)
      unfold base at *
      omega
    · rw [low_succ hl, pow_add]; ring
  · refine ⟨_, by simp only [mulProd, h.digit, hz, if_neg hj]; rfl, ?_, ?_⟩
    · unfold base at *; omega
    · rw [hb.low_succ_of_le (not_lt.mp hj)]

/-- One round keeps the invariant. -/
theorem mulBody_spec (ha : Bounded a) (hb : Bounded b) {ai : ℕ} (h : MulInv a b ai s)
    (hc : mulCond b s = true) :
    ∃ s', mulBody a b s = some s' ∧ MulInv a b ai s' ∧ s'.i = s.i ∧ s'.j = s.j + 1 := by
  obtain ⟨hk, p, h1, h2, h3⟩ := h.prod ha hb hc
  have hu : u64 p = p := Nat.mod_eq_of_lt (lt_trans h2 (by decide))
  have hset := setDigit_eq (d := p % base) hk
  refine ⟨⟨s.i, s.j + 1, p / base, { s.z with obDigit := s.z.obDigit.set (s.i + s.j) (p % base) }⟩,
    ?_, ⟨h.i_lt, h.digit, h.ai_lt, h.row, ?_, fun d hd => ?_, ?_, ?_⟩, rfl, rfl⟩
  · simp only [mulBody, h1, Option.bind_eq_bind, Option.bind_some, hu, and_baseMask,
      toDigit_mod_base, shiftRight_bits, hset]
    rfl
  · simp [h.len]
  · rcases List.mem_or_eq_of_mem_set hd with hd | rfl
    · exact h.lt d hd
    · exact Nat.mod_lt _ (by decide)
  · exact Nat.div_lt_of_lt_mul h2
  · -- the written digit and the new carry are `prod`
    have hds := ofDigits_set (B := base) (v := p % base) hk
    have hv := h.value
    have hp := Nat.mod_add_div p base
    show Nat.ofDigits base (s.z.obDigit.set (s.i + s.j) (p % base)) +
      base ^ (s.i + (s.j + 1)) * (p / base) = low a s.i * magnitude b + base ^ s.i * ai * low b (s.j + 1)
    have hsplit : base ^ (s.i + s.j) * (p % base) + base ^ (s.i + (s.j + 1)) * (p / base) =
        base ^ (s.i + s.j) * p := by
      conv_rhs => rw [← hp]
      rw [← Nat.add_assoc, pow_succ]; ring
    rw [Nat.mul_add] at h3
    omega

/-- **The accumulator invariant** holds at every test of the inner loop. -/
theorem MulReach.inv (ha : Bounded a) (hb : Bounded b) (h : MulReach a b s) :
    ∃ ai, MulInv a b ai s := by
  induction h with
  | start ha0 hb0 =>
    refine MulInv.begin ha ?_ (by simp [pylongAlloc]) (fun d hd => ?_) ?_
    · exact Int.natAbs_pos.mpr ha0
    · rw [List.eq_of_mem_replicate hd]; decide
    · rw [low_zero, Nat.zero_mul, pylongAlloc, Nat.ofDigits_replicate_zero]
  | inner _ hc hs' ih =>
    obtain ⟨ai, hi⟩ := ih
    obtain ⟨s₁, h1, h2, -⟩ := mulBody_spec ha hb hi hc
    obtain rfl : s₁ = _ := Option.some.inj (h1.symm.trans hs')
    exact ⟨ai, h2⟩
  | outer _ hc hlt ih =>
    obtain ⟨ai, hi⟩ := ih
    simp only [mulCond, decide_eq_false_iff_not, not_or, not_lt, Nat.le_zero] at hc
    refine MulInv.begin ha hlt hi.len hi.lt ?_
    have hv := hi.value
    rw [hc.2, hb.low_eq hc.1] at hv
    rw [hi.row]
    linear_combination hv

/-! ## The loops -/

section Loops

variable (ha : Bounded a) (hb : Bounded b)
include ha hb

/-- The inner loop runs through reachable states and ends in one. -/
theorem mulLoop_spec (h : MulReach a b s) (hj : s.j = 0) :
    ∃ s', whileLoop (mulCond b) (mulBody a b) (a.absSize + b.absSize + 1) s = some s' ∧
      MulReach a b s' ∧ s'.i = s.i ∧ mulCond b s' = false := by
  obtain ⟨s', h1, ⟨h2, h3⟩, h4⟩ := whileLoop_inv (mulCond b) (mulBody a b)
    (fun t => MulReach a b t ∧ t.i = s.i) (fun t => a.absSize + b.absSize - (t.i + t.j))
    (fun t ht hc => by
      obtain ⟨ai, hinv⟩ := ht.1.inv ha hb
      have hlt := hinv.index_lt ha hb hc
      obtain ⟨t', h1, -, h3, h4⟩ := mulBody_spec ha hb hinv hc
      exact ⟨t', h1, ⟨ht.1.inner hc h1, h3.trans ht.2⟩, by rw [h3, h4]; omega⟩)
    (a.absSize + b.absSize + 1) s ⟨h, rfl⟩ (by omega)
  exact ⟨s', h1, h2, h3, h4⟩

/-- The array before row `i`: untouched, or as the row below left it. -/
def RowStart (a b : PyLongObject) (i : ℕ) (z : PyLongObject) : Prop :=
  (i = 0 ∧ z = pylongAlloc (a.absSize + b.absSize)) ∨
    ∃ s, MulReach a b s ∧ s.i + 1 = i ∧ mulCond b s = false ∧ s.z = z

theorem mulRow_spec (ha0 : a.obSize ≠ 0) (hb0 : b.obSize ≠ 0) {i : ℕ} {z : PyLongObject}
    (hi : i < a.absSize) (h : RowStart a b i z) :
    ∃ z', mulRow a b i z = some z' ∧ RowStart a b (i + 1) z' := by
  have hreach : MulReach a b ⟨i, 0, 0, z⟩ := by
    rcases h with ⟨rfl, rfl⟩ | ⟨s, h1, rfl, h3, rfl⟩
    · exact .start ha0 hb0
    · exact h1.outer h3 hi
  obtain ⟨s, h1, h2, h3, h4⟩ := mulLoop_spec ha hb hreach rfl
  refine ⟨s.z, by rw [mulRow, h1]; rfl, Or.inr ⟨s, h2, ?_, h4, rfl⟩⟩
  rw [h3]

/-- The digits of the product, before the zeros at the top are dropped. -/
theorem mulRows_spec (ha0 : a.obSize ≠ 0) (hb0 : b.obSize ≠ 0) :
    ∃ z, forRange 0 a.absSize (mulRow a b) (pylongAlloc (a.absSize + b.absSize)) = some z ∧
      Filled z (a.absSize + b.absSize) (a.absSize + b.absSize) ∧
      stored z (a.absSize + b.absSize) = magnitude a * magnitude b := by
  obtain ⟨z, h1, h2⟩ := forRange_inv (mulRow a b) (RowStart a b) (Nat.zero_le a.absSize) (Or.inl ⟨rfl, rfl⟩)
    fun i z _ hi hz => mulRow_spec ha hb ha0 hb0 hi hz
  have hpos : 0 < a.absSize := Int.natAbs_pos.mpr ha0
  obtain ⟨h0, -⟩ | ⟨s, h3, h4, h5, rfl⟩ := h2
  · omega
  obtain ⟨ai, hinv⟩ := h3.inv ha hb
  simp only [mulCond, decide_eq_false_iff_not, not_or, not_lt, Nat.le_zero] at h5
  have htake : s.z.obDigit.take (a.absSize + b.absSize) = s.z.obDigit := by
    rw [← hinv.len, List.take_length]
  refine ⟨s.z, h1, ⟨hinv.len, by rw [htake]; exact hinv.lt⟩, ?_⟩
  have hv := hinv.value
  rw [h5.2, hb.low_eq h5.1] at hv
  rw [stored, htake, ← ha.low_eq (le_of_eq h4.symm), hinv.row]
  linear_combination hv

end Loops

/-- **`pylong_mul`** multiplies. -/
theorem pylongMul_spec (ha : Canonical a) (hb : Canonical b) :
    ∃ z, pylongMul a b = some z ∧ Canonical z ∧ val z = val a * val b := by
  unfold pylongMul
  by_cases h0 : a.obSize = 0 ∨ b.obSize = 0
  · rw [if_pos h0]
    refine ⟨_, rfl, pylongAlloc_zero_canonical.1, ?_⟩
    rw [ha.obSize_eq_zero, hb.obSize_eq_zero] at h0
    rw [pylongAlloc_zero_canonical.2, eq_comm]
    exact mul_eq_zero.mpr h0
  rw [if_neg h0]
  obtain ⟨ha0, hb0⟩ := not_or.mp h0
  obtain ⟨z, h1, h2, h3⟩ := mulRows_spec ha.toBounded hb.toBounded ha0 hb0
  set neg := xor (decide (a.obSize < 0)) (decide (b.obSize < 0)) with hneg
  set size : ℤ := if neg then -((a.absSize + b.absSize : ℕ) : ℤ) else (a.absSize + b.absSize : ℕ)
    with hsize
  have habs : size.natAbs = a.absSize + b.absSize := by rw [hsize]; split_ifs <;> omega
  obtain ⟨hbd, hm⟩ := h2.bounded le_rfl habs
  obtain ⟨z', h4, h5, h6, -⟩ := pylongClamp_spec hbd
  refine ⟨z', by simp only [Option.bind_eq_bind, h1, Option.bind_some, ← hsize, h4], h5, ?_⟩
  -- the sign of the size is the exclusive or of the signs
  have hpos : 0 < a.absSize := Int.natAbs_pos.mpr ha0
  have hsign : size < 0 ↔ neg = true := by
    rw [hsize]
    split_ifs with h
    · exact iff_of_true (by omega) h
    · exact iff_of_false (by omega) h
  rw [h6, val, hm, h3, val, val]
  simp only [hsign, hneg]
  by_cases hna : a.obSize < 0 <;> by_cases hnb : b.obSize < 0 <;> simp [hna, hnb]

/-- What the inner loop computes in one round is inside the array and the machine words. -/
structure RoundFits (a b : PyLongObject) (s : MulState) : Prop where
  index : s.i + s.j < a.absSize + b.absSize
  prod : ∃ p, mulProd a b s = some p ∧ p ≤ 2 ^ 64 - 1
  digits : ∃ s', mulBody a b s = some s' ∧ ∀ d ∈ s'.z.obDigit, d ≤ 2 ^ 30 - 1

/-- **Exact multiplication**, and no round of the inner loop, the carry-only ones included, leaves the
array or overflows. -/
theorem mul_exact (a b : PyLongObject) (ha : Canonical a) (hb : Canonical b) :
    (∃ z, pylongMul a b = some z ∧ Canonical z ∧ val z = val a * val b) ∧
      ∀ s, MulReach a b s → mulCond b s = true → RoundFits a b s := by
  refine ⟨pylongMul_spec ha hb, fun s hs hc => ?_⟩
  obtain ⟨ai, hinv⟩ := hs.inv ha.toBounded hb.toBounded
  obtain ⟨-, p, h1, h2, -⟩ := hinv.prod ha.toBounded hb.toBounded hc
  obtain ⟨s', h3, h4, -⟩ := mulBody_spec ha.toBounded hb.toBounded hinv hc
  refine ⟨hinv.index_lt ha.toBounded hb.toBounded hc, ⟨p, h1, ?_⟩, s', h3, fun d hd => ?_⟩
  · exact le_trans (le_of_lt h2) (by decide)
  · exact Nat.le_sub_one_of_lt (h4.lt d hd)

/-- `-1 * 2 ^ 64`, and its first round. -/
theorem mul_exact_sample :
    (∃ z, pylongMul ⟨-1, [1]⟩ twoPow64 = some z ∧ Canonical z ∧ val z = -2 ^ 64) ∧
      RoundFits ⟨-1, [1]⟩ twoPow64 ⟨0, 0, 0, pylongAlloc 4⟩ := by
  have h := mul_exact ⟨-1, [1]⟩ twoPow64 ((pylongVerifyInvariants_iff (by decide)).mp (by decide))
    twoPow64_canonical
  exact ⟨h.1, h.2 _ (.start (by decide) (by decide)) (by decide)⟩

end Csapp.Bignum
