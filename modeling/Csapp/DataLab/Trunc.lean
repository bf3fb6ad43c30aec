import Csapp.DataLab.Float

/-!
# DataLab.Trunc — `floatFloat2Int`

The significand with its leading 1 is shifted by the distance of the exponent from 23, to the left or to the right,
where the bits behind the point are lost.  For an exponent below 0 the number is less than 1, and from 31 on it is
out of range (`floatFloat2Int_truncates`).
-/

namespace Csapp.DataLab

open Csapp.Lib

def floatFloat2Int (uf : CUnsigned) : CInt :=
  let sign := uf >>> 31
  let exp := (uf >>> 23) &&& 0xFF
  let frac := uf &&& 0x7FFFFF
  let E := exp - 127
  let mantissa : CInt := (1 : CInt) <<< 23 ||| frac
  if E.slt 0 then 0
  else if !E.slt 31 then 0x80000000
  else
    let mantissa := if BitVec.slt 23 E then mantissa <<< (E - 23) else sar mantissa (23 - E)
    if sign = 1 then ~~~mantissa + 1 else mantissa

/-! ## The integer part -/

/-- The integer part of the number without its sign. -/
def integerPart (uf : CUnsigned) : ℕ := magnitude 23 (body uf) / 2 ^ 149

section Value

variable {uf : CUnsigned}

theorem leastPositive_single : leastPositive 8 23 = 1 / ((2 ^ 149 : ℕ) : ℚ) := by
  rw [leastPositive]
  norm_num [zpow_neg]

theorem floor_magnitude (n : ℕ) : ⌊(n : ℚ) * leastPositive 8 23⌋ = ((n / 2 ^ 149 : ℕ) : ℤ) := by
  rw [leastPositive_single, mul_one_div, Rat.floor_natCast_div_natCast, Int.natCast_div]

/-- The number is below `2 ^ 31` where its integer part is. -/
theorem magnitude_lt_iff (n : ℕ) : (n : ℚ) * leastPositive 8 23 < 2 ^ 31 ↔ n / 2 ^ 149 < 2 ^ 31 := by
  have h : (n : ℚ) * leastPositive 8 23 < ((2 ^ 31 : ℤ) : ℚ) ↔ ((n / 2 ^ 149 : ℕ) : ℤ) < 2 ^ 31 := by
    rw [← Int.floor_lt, floor_magnitude]
  rw [← Int.ofNat_lt]
  push_cast at h ⊢
  exact h

theorem body_eq (uf : CUnsigned) : body uf = exponent uf * 2 ^ 23 + fraction uf := by
  unfold exponent fraction
  omega

theorem fraction_lt (uf : CUnsigned) : fraction uf < 2 ^ 23 := Nat.mod_lt _ (by decide)

/-- A normal number is its significand, shifted. -/
theorem magnitude_body {q : ℕ} (h : exponent uf = q + 1) :
    magnitude 23 (body uf) = (2 ^ 23 + fraction uf) * 2 ^ q := by
  rw [body_eq, h, magnitude_normal q (fraction_lt uf)]

theorem integerPart_small (h : exponent uf < 127) : integerPart uf = 0 := by
  have hlt := fraction_lt uf
  have hbody : body uf < (126 + 1) * 2 ^ 23 + 0 := by
    rw [body_eq]
    omega
  have hmag := strictMono_magnitude 23 hbody
  rw [magnitude_normal 126 (by decide), Nat.add_zero, ← Nat.pow_add] at hmag
  exact Nat.div_eq_of_lt hmag

theorem integerPart_right {k : ℕ} (hk : k ≤ 23) (h : exponent uf + k = 150) :
    integerPart uf = (2 ^ 23 + fraction uf) / 2 ^ k := by
  have hpow : 2 ^ 149 = 2 ^ k * 2 ^ (149 - k) := by
    rw [← Nat.pow_add]
    congr 1
    omega
  rw [integerPart, magnitude_body (q := 149 - k) (by omega), hpow, Nat.mul_div_mul_right _ _ (Nat.two_pow_pos _)]

theorem integerPart_left {k : ℕ} (h : exponent uf = 150 + k) :
    integerPart uf = (2 ^ 23 + fraction uf) * 2 ^ k := by
  rw [integerPart, magnitude_body (q := 149 + k) (by omega), Nat.pow_add, Nat.mul_left_comm,
    Nat.mul_div_cancel_left _ (Nat.two_pow_pos _)]

end Value

/-! ## The shifts -/

section Words

variable (uf : CUnsigned)

theorem exponent_lt : exponent uf < 256 := by
  have hlt := body_lt uf
  unfold exponent
  omega

theorem sign_eq_one_iff : uf >>> 31 = 1 ↔ negative uf = true := by
  have hone : (1 : CUnsigned).toNat = 1 := rfl
  rw [← BitVec.toNat_inj, toNat_negative, hone]
  cases negative uf
  · exact iff_of_false (by decide) Bool.false_ne_true
  · exact iff_of_true rfl rfl

/-- The significand has its leading 1 in front of the fraction. -/
theorem toNat_mantissa : ((1 : CUnsigned) <<< 23 ||| uf &&& 0x7FFFFF).toNat = 2 ^ 23 + fraction uf := by
  have hone : ((1 : CUnsigned) <<< 23).toNat = 2 ^ 23 * 1 := rfl
  rw [BitVec.toNat_or, hone, toNat_fraction, ← Nat.two_pow_add_eq_or_of_lt (fraction_lt uf), Nat.mul_one]

variable {uf} {exp mantissa : CInt}

/-- The exponent without its bias. -/
theorem toInt_sub_bias (hexp : exp.toNat = exponent uf) : (exp - 127).toInt = (exponent uf : ℤ) - 127 := by
  have hlt := exponent_lt uf
  have h127 : (127 : CInt).toInt = 127 := rfl
  rw [BitVec.toInt_sub, BitVec.toInt_eq_toNat_of_lt (by omega), hexp, h127]
  exact Int.bmod_eq_of_le (by omega) (by omega)

theorem slt_bias (hexp : exp.toNat = exponent uf) :
    ((exp - 127).slt 0 = true ↔ exponent uf < 127) ∧ ((exp - 127).slt 31 = true ↔ exponent uf < 158) ∧
      (BitVec.slt 23 (exp - 127) = true ↔ 150 < exponent uf) := by
  have h0 : (0 : CInt).toInt = 0 := rfl
  have h31 : (31 : CInt).toInt = 31 := rfl
  have h23 : (23 : CInt).toInt = 23 := rfl
  rw [BitVec.slt_iff_toInt_lt, BitVec.slt_iff_toInt_lt, BitVec.slt_iff_toInt_lt, toInt_sub_bias hexp, h0, h31, h23]
  omega

theorem toNat_left (hexp : exp.toNat = exponent uf) (h : 150 ≤ exponent uf) :
    (exp - 127 - 23).toNat = exponent uf - 150 := by
  have hlt := exponent_lt uf
  have h127 : (127 : CInt).toNat = 127 := rfl
  have h23 : (23 : CInt).toNat = 23 := rfl
  rw [BitVec.toNat_sub, BitVec.toNat_sub, hexp, h127, h23]
  omega

theorem toNat_right (hexp : exp.toNat = exponent uf) (h1 : 127 ≤ exponent uf) (h2 : exponent uf ≤ 150) :
    (23 - (exp - 127)).toNat = 150 - exponent uf := by
  have h127 : (127 : CInt).toNat = 127 := rfl
  have h23 : (23 : CInt).toNat = 23 := rfl
  rw [BitVec.toNat_sub, BitVec.toNat_sub, hexp, h127, h23]
  omega

/-- The shifted significand is the integer part. -/
theorem toNat_shifted (hexp : exp.toNat = exponent uf) (hm : mantissa.toNat = 2 ^ 23 + fraction uf)
    (h1 : 127 ≤ exponent uf) (h2 : exponent uf < 158) :
    (if BitVec.slt 23 (exp - 127) then mantissa <<< (exp - 127 - 23) else sar mantissa (23 - (exp - 127))).toNat =
      integerPart uf := by
  obtain ⟨-, -, hslt⟩ := slt_bias hexp
  have hfrac := fraction_lt uf
  by_cases hleft : 150 < exponent uf
  · obtain ⟨k, hk⟩ := Nat.exists_eq_add_of_le hleft.le
    have hbound : (2 ^ 23 + fraction uf) * 2 ^ k < 2 ^ 24 * 2 ^ 7 :=
      Nat.mul_lt_mul_of_lt_of_le (by omega) (Nat.pow_le_pow_right (by decide) (by omega)) (Nat.two_pow_pos _)
    have hk' : exponent uf - 150 = k := by omega
    rw [if_pos (hslt.mpr hleft), BitVec.shiftLeft_eq', toNat_left hexp hleft.le, BitVec.toNat_shiftLeft, hm,
      Nat.shiftLeft_eq, hk', Nat.mod_eq_of_lt (by omega), integerPart_left hk]
  · obtain ⟨k, hk⟩ := Nat.exists_eq_add_of_le (Nat.not_lt.mp hleft)
    have hk' : 150 - exponent uf = k := by omega
    rw [if_neg (mt hslt.mp hleft), toNat_sar (by omega), toNat_right hexp h1 (Nat.not_lt.mp hleft), hm, hk',
      integerPart_right (by omega) hk.symm]

variable (uf)

/-- `floatFloat2Int` on the integer part. -/
theorem floatFloat2Int_eq : floatFloat2Int uf =
    if exponent uf < 127 then 0
    else if 158 ≤ exponent uf then 0x80000000
    else if negative uf = true then -BitVec.ofNat 32 (integerPart uf) else BitVec.ofNat 32 (integerPart uf) := by
  have hexp := toNat_exponent uf
  have hm := toNat_mantissa uf
  obtain ⟨h0, h31, -⟩ := slt_bias hexp
  rw [floatFloat2Int]
  dsimp only
  by_cases hsmall : exponent uf < 127
  · rw [if_pos (h0.mpr hsmall), if_pos hsmall]
  rw [if_neg (mt h0.mp hsmall), if_neg hsmall]
  by_cases hlarge : 158 ≤ exponent uf
  · rw [if_pos (by rw [Bool.not_eq_true', ← Bool.not_eq_true, h31]; omega), if_pos hlarge]
  have hpart := toNat_shifted hexp hm (Nat.not_lt.mp hsmall) (Nat.not_le.mp hlarge)
  rw [if_neg (by rw [Bool.not_eq_true', ← Bool.not_eq_true, h31]; omega), if_neg hlarge, ← hpart, BitVec.ofNat_toNat,
    BitVec.setWidth_eq, BitVec.neg_eq_not_add]
  by_cases hneg : negative uf = true
  · rw [if_pos ((sign_eq_one_iff uf).mpr hneg), if_pos hneg]
    rfl
  · rw [if_neg (mt (sign_eq_one_iff uf).mp hneg), if_neg hneg]

end Words

/-! ## Truncation -/

section Truncate

variable {uf : CUnsigned}

theorem integerPart_lt_iff : integerPart uf < 2 ^ 31 ↔ exponent uf < 158 := by
  have hbody := body_eq uf
  have hfrac := fraction_lt uf
  have hbound : magnitude 23 ((157 + 1) * 2 ^ 23 + 0) = 2 ^ 149 * 2 ^ 31 := by
    rw [magnitude_normal 157 (by decide)]
    rfl
  rw [integerPart, Nat.div_lt_iff_lt_mul (Nat.two_pow_pos _), Nat.mul_comm, ← hbound,
    (strictMono_magnitude 23).lt_iff_lt]
  omega

/-- The numbers in the range of `int` are those with an exponent below 31. -/
theorem decode_inRange (h : exponent uf < 158) : ∃ value, decode uf = .finite (negative uf) value ∧
    |value| < 2 ^ 31 ∧ truncate value = (if negative uf then -1 else 1) * integerPart uf := by
  have hbody := body_eq uf
  have hfrac := fraction_lt uf
  have htop : top 8 23 = 255 * 2 ^ 23 := rfl
  have hnonneg : (0 : ℚ) ≤ magnitude 23 (body uf) * leastPositive 8 23 :=
    mul_nonneg (Nat.cast_nonneg _) (leastPositive_pos 8 23).le
  refine ⟨_, datum_finite (by omega), ?_, ?_⟩
  · rw [abs_sign_mul _ hnonneg, magnitude_lt_iff]
    exact integerPart_lt_iff.mpr h
  · rw [truncate_sign_mul _ hnonneg, floor_magnitude]
    rfl

theorem decode_outOfRange (h : 158 ≤ exponent uf) {s : Bool} {value : ℚ} (hd : decode uf = .finite s value) :
    2 ^ 31 ≤ |value| := by
  have hnonneg : (0 : ℚ) ≤ magnitude 23 (body uf) * leastPositive 8 23 :=
    mul_nonneg (Nat.cast_nonneg _) (leastPositive_pos 8 23).le
  rw [decode] at hd
  by_cases htop : body uf < top 8 23
  · rw [datum_finite htop] at hd
    obtain ⟨-, rfl⟩ := Datum.finite.inj hd
    rw [abs_sign_mul _ hnonneg, ← not_lt, magnitude_lt_iff]
    exact mt integerPart_lt_iff.mp (Nat.not_lt.mpr h)
  · rw [datum, if_neg htop] at hd
    split_ifs at hd

theorem toInt_ofNat_part {n : ℕ} (hn : n < 2 ^ 31) (s : Bool) :
    (if s = true then -BitVec.ofNat 32 n else BitVec.ofNat 32 n : CInt).toInt = (if s then -1 else 1) * (n : ℤ) := by
  have hpos : (BitVec.ofNat 32 n).toInt = n := by
    rw [BitVec.toInt_ofNat']
    exact Int.bmod_eq_of_le (by omega) (by omega)
  cases s
  · rw [if_neg Bool.false_ne_true, if_neg Bool.false_ne_true, hpos, one_mul]
  · rw [if_pos rfl, if_pos rfl, BitVec.toInt_neg, hpos, neg_one_mul]
    exact Int.bmod_eq_of_le (by omega) (by omega)

end Truncate

/-- **`floatFloat2Int` truncates** the finite numbers below `2 ^ 31`, and gives 0x80000000 for everything else. -/
theorem floatFloat2Int_truncates (uf : CUnsigned) :
    (∀ s value, decode uf = .finite s value → |value| < 2 ^ 31 → (floatFloat2Int uf).toInt = truncate value) ∧
      ((∀ s value, decode uf = .finite s value → 2 ^ 31 ≤ |value|) → floatFloat2Int uf = 0x80000000) := by
  rw [floatFloat2Int_eq]
  by_cases hrange : exponent uf < 158
  · obtain ⟨value, hd, hlt, htrunc⟩ := decode_inRange hrange
    refine ⟨fun s value' hd' _ => ?_, fun hout => absurd hlt (not_lt.mpr (hout _ _ hd))⟩
    obtain ⟨-, rfl⟩ := Datum.finite.inj (hd.symm.trans hd')
    rw [htrunc]
    by_cases hsmall : exponent uf < 127
    · rw [if_pos hsmall, integerPart_small hsmall, Nat.cast_zero, mul_zero]
      rfl
    · rw [if_neg hsmall, if_neg (Nat.not_le.mpr hrange)]
      exact toInt_ofNat_part (integerPart_lt_iff.mpr hrange) _
  · have hlarge := Nat.not_lt.mp hrange
    refine ⟨fun s value hd hlt => absurd hlt (not_lt.mpr (decode_outOfRange hlarge hd)), fun _ => ?_⟩
    rw [if_neg (by omega), if_pos hlarge]

/-- Minus one and a half. -/
example : floatFloat2Int 0xBFC00000 = -1 := by decide

end Csapp.DataLab
