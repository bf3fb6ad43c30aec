import Mathlib.Data.Nat.Digits.Defs
import Mathlib.Tactic.Ring
import Mathlib.Tactic.Linarith

/-!
# Lib.Digits — positional numbers in arrays that are written digit by digit

`Nat.ofDigits B` of a list, least significant digit first, under the edits a schoolbook algorithm
makes: reading digit `i` of a prefix, writing digit `i`, and dropping zeros at the top.  In a base `2 ^ w`
an operation on the digits is the one on the bits.
-/

namespace Csapp.Lib

variable {B : ℕ} {ds : List ℕ} {i v : ℕ}

/-- A prefix grows by one digit. -/
theorem ofDigits_take_succ (h : i < ds.length) :
    Nat.ofDigits B (ds.take (i + 1)) = Nat.ofDigits B (ds.take i) + B ^ i * ds[i] := by
  rw [List.take_succ_eq_append_getElem h, Nat.ofDigits_append, Nat.ofDigits_singleton,
    List.length_take_of_le (le_of_lt h)]

/-- Writing the digit behind a prefix. -/
theorem take_succ_set (h : i < ds.length) : (ds.set i v).take (i + 1) = ds.take i ++ [v] := by
  rw [List.take_succ_eq_append_getElem (by simpa using h), List.take_set_of_le le_rfl]
  simp

theorem ofDigits_take_set (h : i < ds.length) :
    Nat.ofDigits B ((ds.set i v).take (i + 1)) = Nat.ofDigits B (ds.take i) + B ^ i * v := by
  rw [take_succ_set h, Nat.ofDigits_append, Nat.ofDigits_singleton,
    List.length_take_of_le (le_of_lt h)]

/-- Writing any digit. -/
theorem ofDigits_set (h : i < ds.length) :
    Nat.ofDigits B (ds.set i v) + B ^ i * ds[i] = Nat.ofDigits B ds + B ^ i * v := by
  induction ds generalizing i with
  | nil => simp at h
  | cons d ds ih =>
    cases i with
    | zero => simp [Nat.ofDigits_cons]; ring
    | succ i =>
      have hi : i < ds.length := by simpa using h
      simp only [List.set_cons_succ, Nat.ofDigits_cons, List.getElem_cons_succ, pow_succ]
      calc d + B * Nat.ofDigits B (ds.set i v) + B ^ i * B * ds[i]
          = d + B * (Nat.ofDigits B (ds.set i v) + B ^ i * ds[i]) := by ring
        _ = d + B * (Nat.ofDigits B ds + B ^ i * v) := by rw [ih hi]
        _ = d + B * Nat.ofDigits B ds + B ^ i * B * v := by ring

/-- A non-zero top digit bounds it from below. -/
theorem pow_le_ofDigits (h : i < ds.length) (h0 : ds[i] ≠ 0) : B ^ i ≤ Nat.ofDigits B (ds.take (i + 1)) := by
  rw [ofDigits_take_succ h]
  exact le_trans (Nat.le_mul_of_pos_right _ (Nat.pos_of_ne_zero h0)) (Nat.le_add_left _ _)

/-- Bits of a number whose lowest digit is split off. -/
theorem and_digit_cons {w x y : ℕ} (X Y : ℕ) (hx : x < 2 ^ w) (hy : y < 2 ^ w) :
    (x + 2 ^ w * X) &&& (y + 2 ^ w * Y) = (x &&& y) + 2 ^ w * (X &&& Y) := by
  have hpos : 0 < 2 ^ w := Nat.two_pow_pos w
  have hdiv : ((x + 2 ^ w * X) &&& (y + 2 ^ w * Y)) / 2 ^ w = X &&& Y := by
    rw [Nat.and_div_two_pow, Nat.add_mul_div_left _ _ hpos, Nat.add_mul_div_left _ _ hpos,
      Nat.div_eq_of_lt hx, Nat.div_eq_of_lt hy, Nat.zero_add, Nat.zero_add]
  have hmod : ((x + 2 ^ w * X) &&& (y + 2 ^ w * Y)) % 2 ^ w = x &&& y := by
    rw [Nat.and_mod_two_pow, Nat.add_mul_mod_self_left, Nat.add_mul_mod_self_left,
      Nat.mod_eq_of_lt hx, Nat.mod_eq_of_lt hy]
  rw [← Nat.mod_add_div ((x + 2 ^ w * X) &&& (y + 2 ^ w * Y)) (2 ^ w), hdiv, hmod]

/-- The digit-wise `and`, as long as the shorter number, is the bitwise one. -/
theorem ofDigits_zipWith_and {w : ℕ} : ∀ {xs ys : List ℕ}, (∀ x ∈ xs, x < 2 ^ w) → (∀ y ∈ ys, y < 2 ^ w) →
    Nat.ofDigits (2 ^ w) (List.zipWith (· &&& ·) xs ys)
      = Nat.ofDigits (2 ^ w) xs &&& Nat.ofDigits (2 ^ w) ys
  | [], ys, _, _ => by simp
  | _ :: _, [], _, _ => by simp
  | x :: xs, y :: ys, hx, hy => by
    have ih := ofDigits_zipWith_and (w := w) (fun z hz => hx z (List.mem_cons_of_mem x hz))
      fun z hz => hy z (List.mem_cons_of_mem y hz)
    have hx0 := hx x List.mem_cons_self
    have hy0 := hy y List.mem_cons_self
    simp only [List.zipWith_cons_cons, Nat.ofDigits_cons]
    rw [ih, and_digit_cons _ _ hx0 hy0]

end Csapp.Lib
