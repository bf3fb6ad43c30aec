import Csapp.Lib.BigEndian
import Mathlib.Data.Int.ModEq

/-!
# Lib.OnesComplement — sums in one's complement

`onesAdd w` adds words of `w` bits and adds the carry in again, so that it is addition mod `2 ^ w - 1`.  A sum is
all ones, the zero that a checksum is tested for, if and only if `2 ^ w - 1` divides the sum of the words as
numbers and the words are not all 0 (`foldl_onesAdd_eq_iff`).  `beWords` are the 16-bit words of a byte string.
-/

namespace Csapp.Lib

def onesAdd (w x y : ℕ) : ℕ := (x + y) % 2 ^ w + (x + y) / 2 ^ w

section OnesAdd

variable {w x y : ℕ}

theorem onesAdd_of_lt (h : x + y < 2 ^ w) : onesAdd w x y = x + y := by
  rw [onesAdd, Nat.mod_eq_of_lt h, Nat.div_eq_of_lt h, Nat.add_zero]

theorem onesAdd_of_le (h : 2 ^ w ≤ x + y) (h2 : x + y < 2 * 2 ^ w) : onesAdd w x y + (2 ^ w - 1) = x + y := by
  have hpos := Nat.two_pow_pos w
  have hdiv : (x + y) / 2 ^ w = 1 := Nat.div_eq_of_lt_le (by omega) (by omega)
  have hmod := Nat.div_add_mod (x + y) (2 ^ w)
  rw [hdiv, Nat.mul_one] at hmod
  rw [onesAdd, hdiv]
  omega

theorem onesAdd_lt (hx : x < 2 ^ w) (hy : y < 2 ^ w) : onesAdd w x y < 2 ^ w := by
  by_cases h : x + y < 2 ^ w
  · rwa [onesAdd_of_lt h]
  · have := onesAdd_of_le (Nat.not_lt.mp h) (by omega)
    omega

theorem onesAdd_modEq (hx : x < 2 ^ w) (hy : y < 2 ^ w) : onesAdd w x y ≡ x + y [MOD 2 ^ w - 1] := by
  by_cases h : x + y < 2 ^ w
  · rw [onesAdd_of_lt h]
  · rw [← onesAdd_of_le (Nat.not_lt.mp h) (by omega)]
    exact (Nat.add_modEq_right).symm

theorem onesAdd_eq_zero (hx : x < 2 ^ w) (hy : y < 2 ^ w) : onesAdd w x y = 0 ↔ x + y = 0 := by
  by_cases h : x + y < 2 ^ w
  · rw [onesAdd_of_lt h]
  · have := onesAdd_of_le (Nat.not_lt.mp h) (by omega)
    omega

/-- **A sum of words**, in one's complement and as a number. -/
theorem foldl_onesAdd : ∀ {ws : List ℕ} {s : ℕ}, s < 2 ^ w → (∀ x ∈ ws, x < 2 ^ w) →
    ws.foldl (onesAdd w) s < 2 ^ w ∧ ws.foldl (onesAdd w) s ≡ s + ws.sum [MOD 2 ^ w - 1] ∧
      (ws.foldl (onesAdd w) s = 0 ↔ s + ws.sum = 0)
  | [], s, hs, _ => ⟨hs, Nat.ModEq.refl s, Iff.rfl⟩
  | x :: ws, s, hs, hws => by
    have hx := hws x List.mem_cons_self
    obtain ⟨h1, h2, h3⟩ := foldl_onesAdd (onesAdd_lt hs hx) fun y hy => hws y (List.mem_cons_of_mem x hy)
    rw [List.foldl_cons, List.sum_cons]
    refine ⟨h1, h2.trans ?_, h3.trans ?_⟩
    · rw [← Nat.add_assoc]
      exact (onesAdd_modEq hs hx).add_right _
    · have hzero := onesAdd_eq_zero hs hx
      omega

/-- When a sum is all ones. -/
theorem foldl_onesAdd_eq_iff {ws : List ℕ} (hw : w ≠ 0) (hws : ∀ x ∈ ws, x < 2 ^ w) :
    ws.foldl (onesAdd w) 0 = 2 ^ w - 1 ↔ 2 ^ w - 1 ∣ ws.sum ∧ ws.sum ≠ 0 := by
  have h2 : 2 ≤ 2 ^ w := Nat.le_self_pow hw 2
  obtain ⟨hlt, hmod, hzero⟩ := foldl_onesAdd (Nat.two_pow_pos w) hws
  rw [Nat.zero_add] at hmod hzero
  constructor
  · intro h
    rw [h] at hmod
    exact ⟨(Nat.modEq_zero_iff_dvd).mp (hmod.symm.trans (Nat.modEq_zero_iff_dvd.mpr (Nat.dvd_refl _))), by omega⟩
  · rintro ⟨hdvd, hne⟩
    obtain ⟨k, hk⟩ := (Nat.modEq_zero_iff_dvd).mp (hmod.trans (Nat.modEq_zero_iff_dvd.mpr hdvd))
    have hk0 : k ≠ 0 := by
      rintro rfl
      omega
    have hk1 : k = 1 := by
      by_contra hk1
      have hmul := Nat.mul_le_mul_left (2 ^ w - 1) (show 2 ≤ k by omega)
      omega
    rw [hk, hk1, Nat.mul_one]

end OnesAdd

/-! ## Words of a byte string -/

/-- The 16-bit words, the last one filled up with a zero byte. -/
def beWords : List UInt8 → List ℕ
  | [] => []
  | [x] => [beNat [x, 0]]
  | x :: y :: l => beNat [x, y] :: beWords l

theorem beWords_lt : ∀ (l : List UInt8), ∀ x ∈ beWords l, x < 2 ^ 16
  | [], x, hx => absurd hx List.not_mem_nil
  | [b], x, hx => by
    rw [List.mem_singleton.mp hx]
    exact beNat_pair_lt b 0
  | b :: c :: l, x, hx => by
    rcases List.mem_cons.mp hx with rfl | hx
    · exact beNat_pair_lt b c
    · exact beWords_lt l x hx

theorem beWords_be16 (x : UInt16) (l : List UInt8) : beWords (be16 x ++ l) = x.toNat :: beWords l := by
  have hlt : x.toNat < 256 ^ 2 := x.toNat_lt
  have hx : beNat (be16 x) = x.toNat := by
    rw [be16, beNat_beBytes, Nat.mod_eq_of_lt hlt]
  exact congrArg (· :: beWords l) hx

end Csapp.Lib
