import Csapp.Lib.Width

/-!
# DataLab.Bits — `howManyBits`

`labs/01_datalab/datalab-handout/bits.c`.  An `int` is a word of 32 bits, and `>>` on it is the arithmetic
shift.  Each of the five steps of `howManyBits` halves the distance in which the highest bit is searched for
(`step_spec`).
-/

namespace Csapp.DataLab

open Csapp.Lib

abbrev CInt := BitVec 32

/-- `!x`. -/
def lnot (x : CInt) : CInt := if x = 0 then 1 else 0

/-- `x >> n`. -/
def sar (x n : CInt) : CInt := x.sshiftRight' n

def howManyBits (x : CInt) : CInt :=
  let sign := sar x 31
  let x := x ^^^ sign
  let b16 := lnot (lnot (sar x 16))
  let step_16 := b16 <<< 4
  let x := sar x step_16
  let b8 := lnot (lnot (sar x 8))
  let step_8 := b8 <<< 3
  let x := sar x step_8
  let b4 := lnot (lnot (sar x 4))
  let step_4 := b4 <<< 2
  let x := sar x step_4
  let b2 := lnot (lnot (sar x 2))
  let step_2 := b2 <<< 1
  let x := sar x step_2
  let b := lnot (lnot (sar x 1))
  let step := b <<< 0
  let x := sar x step
  step_16 + step_8 + step_4 + step_2 + step + 1 + x

/-! ## One step -/

theorem toNat_one : (1 : CInt).toNat = 1 := rfl

theorem lnot_lnot (x : CInt) : lnot (lnot x) = if x = 0 then 0 else 1 := by
  unfold lnot
  by_cases hx : x = 0
  · rw [if_pos hx, if_pos hx, if_neg (by decide)]
  · rw [if_neg hx, if_neg hx, if_pos rfl]

theorem toNat_sar {x n : CInt} (hx : x.toNat < 2 ^ 31) : (sar x n).toNat = x.toNat / 2 ^ n.toNat := by
  have hmsb : x.msb = false := by
    rw [BitVec.msb_eq_decide]
    exact decide_eq_false (Nat.not_le.mpr hx)
  rw [sar, BitVec.sshiftRight', BitVec.toNat_sshiftRight_of_msb_false hmsb, Nat.shiftRight_eq_div_pow]

/-- The step for the distance `d`, with `2 ^ j = d`, is a step of the search for the highest bit. -/
theorem step_spec {x d : CInt} {j : ℕ} (hx : x.toNat < 2 ^ 31) (hd : d.toNat = 2 ^ j) (hj : j ≤ 4) :
    highBit (j + 1) x.toNat = (lnot (lnot (sar x d)) <<< j).toNat +
        highBit j (sar x (lnot (lnot (sar x d)) <<< j)).toNat ∧
      (sar x (lnot (lnot (sar x d)) <<< j)).toNat < 2 ^ 31 := by
  have hzero : sar x d = 0 ↔ ¬ 2 ^ 2 ^ j ≤ x.toNat := by
    rw [← BitVec.toNat_inj, toNat_sar hx, hd, Nat.not_le]
    exact Nat.div_eq_zero_iff_lt (Nat.two_pow_pos _)
  rw [toNat_sar hx, lnot_lnot, highBit_succ]
  by_cases hle : 2 ^ 2 ^ j ≤ x.toNat
  · have hlt : 2 ^ j < 2 ^ 32 := Nat.pow_lt_pow_right (by decide) (by omega)
    have hone : ((1 : CInt) <<< j).toNat = 2 ^ j := by
      rw [BitVec.toNat_shiftLeft, toNat_one, Nat.shiftLeft_eq, Nat.one_mul, Nat.mod_eq_of_lt hlt]
    rw [if_neg (fun h => hzero.mp h hle), if_pos hle, if_pos hle, hone]
    exact ⟨rfl, Nat.lt_of_le_of_lt (Nat.div_le_self _ _) hx⟩
  · have hnil : ((0 : CInt) <<< j).toNat = 0 := congrArg BitVec.toNat (BitVec.zero_shiftLeft j)
    rw [if_pos (hzero.mpr hle), if_neg hle, if_neg hle, hnil, Nat.pow_zero, Nat.div_one]
    exact ⟨rfl, hx⟩

/-! ## The function -/

/-- Negative numbers are complemented, so that the highest bit that differs from the sign is the highest 1. -/
theorem fold_spec (x : CInt) : (x ^^^ sar x 31).toNat = folded x.toInt ∧ (x ^^^ sar x 31).toNat < 2 ^ 31 := by
  have hlt := x.isLt
  cases hmsb : x.msb with
  | false =>
    have hx : x.toNat < 2 ^ 31 := by
      rw [BitVec.msb_eq_decide] at hmsb
      exact Nat.not_le.mp (of_decide_eq_false hmsb)
    have hsign : sar x 31 = 0 := by
      rw [← BitVec.toNat_inj, toNat_sar hx]
      exact Nat.div_eq_of_lt hx
    have hint : x.toInt = x.toNat := BitVec.toInt_eq_toNat_of_msb hmsb
    have hxor : x ^^^ 0 = x := BitVec.xor_zero
    rw [hsign, hxor, hint, folded, if_pos (Int.natCast_nonneg _), Int.toNat_natCast]
    exact ⟨rfl, hx⟩
  | true =>
    have hx : 2 ^ 31 ≤ x.toNat := by
      rw [BitVec.msb_eq_decide] at hmsb
      exact of_decide_eq_true hmsb
    have hnot : (~~~x).toNat = 2 ^ 32 - 1 - x.toNat := BitVec.toNat_not
    have hsign : sar x 31 = BitVec.allOnes 32 := by
      have hzero : (~~~x) >>> 31 = 0 := by
        rw [← BitVec.toNat_inj, BitVec.toNat_ushiftRight, hnot, Nat.shiftRight_eq_div_pow]
        exact Nat.div_eq_of_lt (by omega)
      show x.sshiftRight 31 = _
      rw [BitVec.sshiftRight_eq_of_msb_true hmsb, hzero]
      exact BitVec.not_zero
    have hint : x.toInt = x.toNat - 2 ^ 32 := by
      rw [BitVec.toInt_eq_toNat_cond, if_neg (by omega)]
      rfl
    rw [hsign, BitVec.xor_allOnes, hnot, hint, folded, if_neg (by omega)]
    omega

theorem toNat_howManyBits (x : CInt) : (howManyBits x).toNat = (folded x.toInt).size + 1 := by
  obtain ⟨hfold, hx⟩ := fold_spec x
  obtain ⟨h16, hx16⟩ := step_spec (d := 16) (j := 4) hx rfl (by decide)
  obtain ⟨h8, hx8⟩ := step_spec (d := 8) (j := 3) hx16 rfl (by decide)
  obtain ⟨h4, hx4⟩ := step_spec (d := 4) (j := 2) hx8 rfl (by decide)
  obtain ⟨h2, hx2⟩ := step_spec (d := 2) (j := 1) hx4 rfl (by decide)
  obtain ⟨h1, -⟩ := step_spec (d := 1) (j := 0) hx2 rfl (by decide)
  have hsize : highBit 5 (x ^^^ sar x 31).toNat = (folded x.toInt).size := by
    rw [← hfold]
    exact highBit_eq_size 5 (Nat.lt_of_lt_of_le hx (by decide))
  have hle : (folded x.toInt).size ≤ 31 := by
    rw [← hfold]
    exact Nat.size_le.mpr hx
  have hlast : ∀ y, highBit 0 y = y := fun _ => rfl
  simp only [Nat.reduceAdd, hlast] at h16 h8 h4 h2 h1
  simp only [howManyBits, BitVec.toNat_add, toNat_one]
  omega

/-- **`howManyBits`** is the least number of bits that two's complement needs. -/
theorem howManyBits_least (x : CInt) :
    IsLeast {n : ℕ | 1 ≤ n ∧ -2 ^ (n - 1) ≤ x.toInt ∧ x.toInt ≤ 2 ^ (n - 1) - 1} (howManyBits x).toNat := by
  rw [toNat_howManyBits]
  exact isLeast_width x.toInt

/-- The examples of the comment. -/
example : [12, 298, -5, 0, -1, 0x80000000].map howManyBits = [5, 10, 4, 1, 1, 32] := by decide

end Csapp.DataLab
