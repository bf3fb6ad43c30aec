import Mathlib.Algebra.Ring.Nat
import Mathlib.Algebra.Order.Ring.Nat

/-!
# Lib.BigEndian — numbers as bytes, the highest one first

`beBytes k n` are the last `k` bytes of `n`; `beNat` is the number that bytes stand for.  For 16 and for 32
bits: the bytes of a number give the number back, and so do two or four bytes.
-/

namespace Csapp.Lib

def beBytes : ℕ → ℕ → List UInt8
  | 0, _ => []
  | k + 1, n => UInt8.ofNat (n / 256 ^ k) :: beBytes k n

def beNat : List UInt8 → ℕ
  | [] => 0
  | b :: l => b.toNat * 256 ^ l.length + beNat l

@[simp] theorem length_beBytes (k n : ℕ) : (beBytes k n).length = k := by
  induction k with
  | zero => rfl
  | succ k ih => rw [beBytes, List.length_cons, ih]

theorem beNat_lt (l : List UInt8) : beNat l < 256 ^ l.length := by
  induction l with
  | nil => exact Nat.one_pos
  | cons b l ih =>
    have hb : b.toNat + 1 ≤ 256 := b.toNat_lt
    calc b.toNat * 256 ^ l.length + beNat l
        < b.toNat * 256 ^ l.length + 256 ^ l.length := Nat.add_lt_add_left ih _
      _ = (b.toNat + 1) * 256 ^ l.length := (Nat.succ_mul _ _).symm
      _ ≤ 256 * 256 ^ l.length := Nat.mul_le_mul_right _ hb
      _ = 256 ^ (b :: l).length := (Nat.pow_succ').symm

theorem beNat_beBytes (k n : ℕ) : beNat (beBytes k n) = n % 256 ^ k := by
  induction k with
  | zero => rw [beBytes, beNat, Nat.pow_zero, Nat.mod_one]
  | succ k ih =>
    rw [beBytes, beNat, length_beBytes, ih, UInt8.toNat_ofNat', Nat.pow_succ 256 k, Nat.mod_mul, Nat.mul_comm]
    exact Nat.add_comm _ _

/-- Only the last `k` bytes count. -/
theorem beBytes_add_mul (k m n : ℕ) : beBytes k (m * 256 ^ k + n) = beBytes k n := by
  induction k generalizing m with
  | zero => rfl
  | succ k ih =>
    have hpow : m * 256 ^ (k + 1) = m * 256 * 256 ^ k := by rw [Nat.pow_succ', Nat.mul_assoc]
    have hdiv : (m * 256 ^ (k + 1) + n) / 256 ^ k = m * 256 + n / 256 ^ k := by
      rw [hpow, Nat.mul_comm (m * 256), Nat.mul_add_div (Nat.pow_pos (by decide))]
    rw [beBytes, beBytes, hdiv, hpow, ih]
    congr 1
    rw [UInt8.ofNat_add, UInt8.ofNat_mul, show UInt8.ofNat 256 = 0 from rfl, UInt8.mul_zero, UInt8.zero_add]

theorem beBytes_beNat (l : List UInt8) : beBytes l.length (beNat l) = l := by
  induction l with
  | nil => rfl
  | cons b l ih =>
    have hdiv : (b.toNat * 256 ^ l.length + beNat l) / 256 ^ l.length = b.toNat := by
      rw [Nat.mul_comm, Nat.mul_add_div (Nat.pow_pos (by decide)), Nat.div_eq_of_lt (beNat_lt l), Nat.add_zero]
    rw [List.length_cons, beBytes, beNat, hdiv, beBytes_add_mul, ih, UInt8.ofNat_toNat]

/-! ## 16 and 32 bits -/

def be16 (x : UInt16) : List UInt8 := beBytes 2 x.toNat

def be32 (x : UInt32) : List UInt8 := beBytes 4 x.toNat

def uint16 (l : List UInt8) : UInt16 := UInt16.ofNat (beNat l)

def uint32 (l : List UInt8) : UInt32 := UInt32.ofNat (beNat l)

@[simp] theorem length_be16 (x : UInt16) : (be16 x).length = 2 := length_beBytes 2 _

@[simp] theorem length_be32 (x : UInt32) : (be32 x).length = 4 := length_beBytes 4 _

@[simp] theorem uint16_be16 (x : UInt16) : uint16 (be16 x) = x := by
  have hlt : x.toNat < 256 ^ 2 := x.toNat_lt
  rw [uint16, be16, beNat_beBytes, Nat.mod_eq_of_lt hlt, UInt16.ofNat_toNat]

@[simp] theorem uint32_be32 (x : UInt32) : uint32 (be32 x) = x := by
  have hlt : x.toNat < 256 ^ 4 := x.toNat_lt
  rw [uint32, be32, beNat_beBytes, Nat.mod_eq_of_lt hlt, UInt32.ofNat_toNat]

theorem beNat_pair_lt (x y : UInt8) : beNat [x, y] < 2 ^ 16 := by
  have hpow : 256 ^ [x, y].length = 2 ^ 16 := (Nat.pow_mul 2 8 2).symm
  rw [← hpow]
  exact beNat_lt [x, y]

/-- Two bytes as a word. -/
theorem toNat_uint16_pair (x y : UInt8) : (uint16 [x, y]).toNat = x.toNat * 256 + y.toNat := by
  rw [uint16, UInt16.toNat_ofNat_of_lt' (beNat_pair_lt x y)]
  show x.toNat * 256 ^ 1 + (y.toNat * 256 ^ 0 + 0) = _
  omega

theorem be16_uint16 {l : List UInt8} (h : l.length = 2) : be16 (uint16 l) = l := by
  have hlt := beNat_lt l
  rw [h] at hlt
  rw [be16, uint16, UInt16.toNat_ofNat_of_lt' hlt, ← h, beBytes_beNat]

theorem be32_uint32 {l : List UInt8} (h : l.length = 4) : be32 (uint32 l) = l := by
  have hlt := beNat_lt l
  rw [h] at hlt
  rw [be32, uint32, UInt32.toNat_ofNat_of_lt' hlt, ← h, beBytes_beNat]

end Csapp.Lib
