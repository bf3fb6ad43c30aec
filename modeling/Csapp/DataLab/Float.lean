import Csapp.DataLab.Bits
import Csapp.Lib.Binary

/-!
# DataLab.Float — `floatScale2`

A pattern of 32 bits has a sign, 8 bits of exponent and 23 bits of fraction; `decode` is what it stands for.
`floatScale2` adds 1 to the exponent field of a normal number and keeps the fraction.  In the last binade before
infinity that gives the exponent field of infinity with the old fraction, so that the result is not a number
unless the fraction is 0 (`floatScale2_iff`).
-/

namespace Csapp.DataLab

open Csapp.Lib

abbrev CUnsigned := BitVec 32

def floatScale2 (uf : CUnsigned) : CUnsigned :=
  let sign := uf >>> 31
  let exp := (uf >>> 23) &&& 0xFF
  let frac := uf &&& 0x7FFFFF
  if exp = 255 then uf
  else if exp = 0 then sign <<< 31 ||| frac <<< 1
  else sign <<< 31 ||| (exp + 1) <<< 23 ||| frac

/-! ## The format -/

def negative (uf : CUnsigned) : Bool := uf.msb

/-- The pattern without its sign. -/
def body (uf : CUnsigned) : ℕ := uf.toNat % 2 ^ 31

def exponent (uf : CUnsigned) : ℕ := body uf / 2 ^ 23

def fraction (uf : CUnsigned) : ℕ := body uf % 2 ^ 23

/-- The single-precision number of a pattern. -/
def decode (uf : CUnsigned) : Datum := datum 8 23 (negative uf) (body uf)

def IsNaN (uf : CUnsigned) : Prop := exponent uf = 255 ∧ fraction uf ≠ 0

/-- A pattern is its sign and what follows it. -/
def pattern (s : Bool) (n : ℕ) : CUnsigned := BitVec.ofNat 32 (s.toNat * 2 ^ 31 + n)

section Patterns

variable {uf g : CUnsigned} {s : Bool} {n : ℕ}

theorem toNat_pattern (hn : n < 2 ^ 31) : (pattern s n).toNat = s.toNat * 2 ^ 31 + n := by
  have hs : s.toNat ≤ 1 := Bool.toNat_le s
  rw [pattern, BitVec.toNat_ofNat, Nat.mod_eq_of_lt (by omega)]

theorem body_pattern (hn : n < 2 ^ 31) : body (pattern s n) = n := by
  rw [body, toNat_pattern hn, Nat.add_comm, Nat.add_mul_mod_self_right, Nat.mod_eq_of_lt hn]

theorem negative_pattern (hn : n < 2 ^ 31) : negative (pattern s n) = s := by
  rw [negative, BitVec.msb_eq_decide, toNat_pattern hn]
  cases s
  · exact decide_eq_false (by rw [Bool.toNat_false]; omega)
  · exact decide_eq_true (by rw [Bool.toNat_true]; omega)

theorem body_lt (uf : CUnsigned) : body uf < 2 ^ 31 := Nat.mod_lt _ (by decide)

theorem pattern_eq (uf : CUnsigned) : pattern (negative uf) (body uf) = uf := by
  rw [← BitVec.toNat_inj, toNat_pattern (body_lt uf), negative, body, BitVec.msb_eq_decide]
  have hlt := uf.isLt
  by_cases h : 2 ^ 31 ≤ uf.toNat
  · rw [decide_eq_true h, Bool.toNat_true]
    omega
  · rw [decide_eq_false h, Bool.toNat_false]
    omega

theorem isNaN_iff : IsNaN uf ↔ top 8 23 < body uf := by
  have hlt := body_lt uf
  have htop : top 8 23 = 255 * 2 ^ 23 := rfl
  unfold IsNaN exponent fraction
  omega

/-- What is not a NaN has one pattern. -/
theorem decode_inj (hu : ¬ IsNaN uf) (hg : ¬ IsNaN g) (h : decode uf = decode g) : uf = g := by
  rw [isNaN_iff, Nat.not_lt] at hu hg
  obtain ⟨h1, h2⟩ := datum_inj hu hg h
  rw [← pattern_eq uf, ← pattern_eq g, h1, h2]

end Patterns

/-! ## The function on the fields -/

section Fields

variable (uf : CUnsigned)

theorem toNat_negative : (uf >>> 31).toNat = (negative uf).toNat := by
  have hlt := uf.isLt
  rw [BitVec.toNat_ushiftRight, Nat.shiftRight_eq_div_pow, negative, BitVec.msb_eq_decide]
  by_cases h : 2 ^ 31 ≤ uf.toNat
  · rw [decide_eq_true h, Bool.toNat_true]
    omega
  · rw [decide_eq_false h, Bool.toNat_false]
    omega

theorem toNat_exponent : ((uf >>> 23) &&& 0xFF).toNat = exponent uf := by
  have hand : uf.toNat / 2 ^ 23 &&& 255 = uf.toNat / 2 ^ 23 % 2 ^ 8 := Nat.and_two_pow_sub_one_eq_mod _ 8
  rw [BitVec.toNat_and, BitVec.toNat_ushiftRight, Nat.shiftRight_eq_div_pow]
  refine hand.trans ?_
  unfold exponent body
  omega

theorem toNat_fraction : (uf &&& 0x7FFFFF).toNat = fraction uf := by
  have hand : uf.toNat &&& 0x7FFFFF = uf.toNat % 2 ^ 23 := Nat.and_two_pow_sub_one_eq_mod _ 23
  rw [BitVec.toNat_and]
  refine hand.trans ?_
  unfold fraction body
  omega

/-- A word below the sign bit takes the sign of `uf`. -/
theorem sign_or {y : CUnsigned} (hy : y.toNat < 2 ^ 31) :
    (uf >>> 31) <<< 31 ||| y = pattern (negative uf) y.toNat := by
  have hs : (negative uf).toNat ≤ 1 := Bool.toNat_le _
  rw [← BitVec.toNat_inj, toNat_pattern hy, BitVec.toNat_or, BitVec.toNat_shiftLeft, toNat_negative,
    Nat.shiftLeft_eq, Nat.mod_eq_of_lt (by omega), Nat.mul_comm]
  exact (Nat.two_pow_add_eq_or_of_lt hy _).symm

/-- What `floatScale2` makes of the pattern without its sign. -/
theorem floatScale2_eq : floatScale2 uf =
    if exponent uf = 255 then uf
    else pattern (negative uf) (if exponent uf = 0 then 2 * body uf else body uf + 2 ^ 23) := by
  have hexp := toNat_exponent uf
  have hfrac := toNat_fraction uf
  have hbody := body_lt uf
  have h255 : (uf >>> 23) &&& 0xFF = 255 ↔ exponent uf = 255 := by
    rw [← BitVec.toNat_inj, hexp]
    rfl
  have h0 : (uf >>> 23) &&& 0xFF = 0 ↔ exponent uf = 0 := by
    rw [← BitVec.toNat_inj, hexp]
    rfl
  simp only [floatScale2, h255, h0]
  generalize (uf >>> 23) &&& 0xFF = exp at *
  generalize uf &&& 0x7FFFFF = frac at *
  unfold exponent fraction at *
  split_ifs with hinf hsub
  · rfl
  · have hy : (frac <<< 1).toNat = 2 * body uf := by
      rw [BitVec.toNat_shiftLeft, Nat.shiftLeft_eq, hfrac]
      omega
    rw [sign_or uf (by omega), hy]
  · have hexp1 : (exp + 1).toNat = body uf / 2 ^ 23 + 1 := by
      rw [BitVec.toNat_add, hexp, toNat_one]
      omega
    have hlt : frac.toNat < 2 ^ 23 := hfrac ▸ Nat.mod_lt _ (by decide)
    have hy : ((exp + 1) <<< 23 ||| frac).toNat = body uf + 2 ^ 23 := by
      rw [BitVec.toNat_or, BitVec.toNat_shiftLeft, Nat.shiftLeft_eq, hexp1, Nat.mod_eq_of_lt (by omega), Nat.mul_comm,
        ← Nat.two_pow_add_eq_or_of_lt hlt, hfrac]
      omega
    rw [BitVec.or_assoc, sign_or uf (by omega), hy]

end Fields

/-! ## Doubling -/

/-- `floatScale2` gives the pattern of the double, and a NaN as it is. -/
def Scales (uf : CUnsigned) : Prop :=
  (IsNaN uf → floatScale2 uf = uf) ∧
    (¬ IsNaN uf → ∀ g, decode g = (decode uf).double 8 ↔ g = floatScale2 uf)

/-- The pattern of the double: infinity is reached with fraction 0. -/
def doubled (uf : CUnsigned) : CUnsigned :=
  if exponent uf = 255 then uf
  else pattern (negative uf) (min (if exponent uf = 0 then 2 * body uf else body uf + 2 ^ 23) (top 8 23))

section Double

variable {uf : CUnsigned}

theorem lt_of_le_top {n : ℕ} (h : n ≤ top 8 23) : n < 2 ^ 31 := Nat.lt_of_le_of_lt h (by decide)

theorem not_isNaN_doubled (h : ¬ IsNaN uf) : ¬ IsNaN (doubled uf) := by
  unfold doubled
  split_ifs
  · exact h
  all_goals
    rw [isNaN_iff, body_pattern (lt_of_le_top (Nat.min_le_right _ _)), Nat.not_lt]
    exact Nat.min_le_right _ _

theorem double_decode (h : ¬ IsNaN uf) : (decode uf).double 8 = decode (doubled uf) := by
  have htop : top 8 23 = 255 * 2 ^ 23 := rfl
  rw [isNaN_iff, Nat.not_lt] at h
  unfold doubled
  split_ifs with hinf h0
  · have hbody : body uf = top 8 23 := by
      unfold exponent at hinf
      omega
    rw [decode, hbody, datum_top]
    rfl
  all_goals
    unfold exponent at hinf h0
    have hn : body uf < top 8 23 := by omega
    rw [decode, decode, body_pattern (lt_of_le_top (Nat.min_le_right _ _)),
      negative_pattern (lt_of_le_top (Nat.min_le_right _ _))]
  · exact double_datum (by decide) _ hn (magnitude_double (by omega))
  · exact double_datum (by decide) _ hn (magnitude_add (by omega))

theorem decode_eq_nan_iff : decode uf = .nan ↔ IsNaN uf := by
  rw [isNaN_iff]
  constructor
  · intro h
    unfold decode datum at h
    split_ifs at h
    omega
  · exact datum_nan

/-- Only one pattern is right. -/
theorem scales_iff_eq (h : ¬ IsNaN uf) : Scales uf ↔ floatScale2 uf = doubled uf := by
  rw [Scales, double_decode h]
  constructor
  · exact fun hs => ((hs.2 h (doubled uf)).mp rfl).symm
  · refine fun heq => ⟨fun hn => absurd hn h, fun _ g => ⟨fun hg => ?_, fun hg => by rw [hg, heq]⟩⟩
    have hnan : ¬ IsNaN g := by
      rw [← decode_eq_nan_iff, hg, decode_eq_nan_iff]
      exact not_isNaN_doubled h
    rw [heq]
    exact decode_inj hnan (not_isNaN_doubled h) hg

/-- **`floatScale2` doubles** every number but those of the last binade with a fraction, which have an infinite
double and become NaNs. -/
theorem floatScale2_iff (uf : CUnsigned) : Scales uf ↔ ¬ (exponent uf = 254 ∧ fraction uf ≠ 0) := by
  by_cases hnan : IsNaN uf
  · refine iff_of_true ⟨fun _ => ?_, fun h => absurd hnan h⟩ fun h => ?_
    · rw [floatScale2_eq, if_pos hnan.1]
    · have hexp := h.1.symm.trans hnan.1
      omega
  rw [scales_iff_eq hnan, floatScale2_eq, doubled]
  have hbody := body_lt uf
  have htop : top 8 23 = 255 * 2 ^ 23 := rfl
  unfold fraction
  by_cases hinf : exponent uf = 255
  · rw [if_pos hinf, if_pos hinf]
    exact iff_of_true rfl fun h => by omega
  rw [if_neg hinf, if_neg hinf]
  unfold exponent at *
  generalize hn : (if body uf / 2 ^ 23 = 0 then 2 * body uf else body uf + 2 ^ 23) = n
  have hlt : n < 2 ^ 31 := by
    split_ifs at hn <;> omega
  have hiff : n ≤ top 8 23 ↔ ¬ (body uf / 2 ^ 23 = 254 ∧ body uf % 2 ^ 23 ≠ 0) := by
    split_ifs at hn <;> omega
  rw [← hiff]
  constructor
  · intro h
    have hmin := congrArg body h
    rw [body_pattern hlt, body_pattern (lt_of_le_top (Nat.min_le_right _ _))] at hmin
    exact hmin.trans_le (Nat.min_le_right _ _)
  · exact fun h => by rw [Nat.min_eq_left h]

end Double

/-- The double of a number just above `2 ^ 127` is infinite, but the result is a NaN. -/
theorem largest_binade_not_scaled : floatScale2 0x7F000001 = 0x7F800001 ∧ IsNaN 0x7F800001 ∧ ¬ Scales 0x7F000001 := by
  refine ⟨by decide, ⟨by decide, by decide⟩, fun h => ?_⟩
  have hnan : ¬ IsNaN 0x7F000001 := fun hn => absurd hn.1 (by decide)
  exact absurd ((scales_iff_eq hnan).mp h) (by decide)

/-- A subnormal number that becomes normal. -/
example : floatScale2 0x80400000 = 0x80800000 := by decide

end Csapp.DataLab
