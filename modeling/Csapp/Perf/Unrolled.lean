import Csapp.Lib.Unroll
import Mathlib.Data.UInt
import Mathlib.Data.List.GetD
import Mathlib.Algebra.Order.BigOperators.Group.List

/-!
# Perf.Unrolled — loops with four accumulators

`dotproductfast` of `dotproduct.c`, and `AverageAge` and `AveragePaymentAmount` of `metrics.go`, with the plain loops
that they replace.  `dotproductfast` goes on by 3 elements after a round that reads 4, so that the products at 3, 6, 9,
… count twice (`dotproductfast_iff`).  The loops of `metrics.go` have no loop for the up to 3 elements behind the last
full round (`totals_iff`).
-/

namespace Csapp.Perf

open Csapp.Lib
open Finset (range Ico)

/-! ## The dot product -/

section Dot

variable {R : Type*} [CommRing R]

/-- `vec_rec`: `n` elements. -/
abbrev Vec (R : Type*) (n : ℕ) : Type _ := { data : List R // data.length = n }

/-- `u_start[i] * v_start[i]`; `none` is a read behind an end. -/
def product (u v : List R) (i : ℕ) : Option R := do
  let u_val ← u[i]?
  let v_val ← v[i]?
  return u_val * v_val

def dotproduct (u v : List R) : Option R := sumLoop (product u v) 0 u.length 0

/-- Where `v_len - 3` is negative, the first loop makes no round, and here none before 0. -/
def dotproductfast (u v : List R) : Option R := do
  let v_len := u.length
  let (i, s) ← unrolledLoop (product u v) 0 (v_len - 3) 3 ⟨0, 0, 0, 0⟩
  let sum ← sumLoop (product u v) i v_len s.sum0
  return sum + s.sum1 + s.sum2 + s.sum3

/-- The products that are added twice. -/
def addedTwice (u v : List R) : R :=
  ∑ j ∈ range ((u.length - 1) / 3), u.getD (3 * (j + 1)) 0 * v.getD (3 * (j + 1)) 0

variable {n : ℕ} (u v : Vec R n)

theorem product_eq {i : ℕ} (hi : i < n) : product u.1 v.1 i = some (u.1.getD i 0 * v.1.getD i 0) := by
  have hu : i < u.1.length := u.2.symm ▸ hi
  have hv : i < v.1.length := v.2.symm ▸ hi
  rw [product, List.getElem?_eq_getElem hu, List.getElem?_eq_getElem hv, List.getD_eq_getElem _ _ hu,
    List.getD_eq_getElem _ _ hv]
  rfl

theorem dotproduct_eq : dotproduct u.1 v.1 = some (∑ i ∈ range n, u.1.getD i 0 * v.1.getD i 0) := by
  rw [dotproduct, u.2]
  exact sumLoop_zero fun i hi => product_eq u v hi

/-- No read is behind an end. -/
theorem dotproductfast_eq : dotproductfast u.1 v.1 =
    some (∑ i ∈ range n, u.1.getD i 0 * v.1.getD i 0 + addedTwice u.1 v.1) := by
  obtain ⟨k, s, h1, h2, h3, h4⟩ := unrolledLoop_spec (n := n) (fun i hi => product_eq u v hi) 0 (n - 3)
    (show 0 < 3 by decide) (by omega)
  rw [Nat.zero_add] at h1 h2
  have hk : k = (n - 1) / 3 := by
    cases k with
    | zero => omega
    | succ k =>
      have hlast := h3 k (Nat.lt_succ_self k)
      omega
  have hle : k * 3 ≤ n := by omega
  rw [dotproductfast, u.2, h1, Option.bind_eq_bind, Option.bind_some]
  dsimp only
  rw [sumLoop_spec (fun i hi => product_eq u v hi) hle, Option.bind_eq_bind, Option.bind_some]
  refine congrArg some ?_
  have htotal : s.sum0 + s.sum1 + s.sum2 + s.sum3 = _ := h4
  rw [sum_rounds_three] at htotal
  rw [addedTwice, u.2, ← hk, ← Finset.sum_range_add_sum_Ico _ hle, add_right_comm (∑ i ∈ range (k * 3), _), ← htotal]
  abel

/-- **`dotproductfast`** is the dot product if and only if the products at 3, 6, 9, … add up to 0. -/
theorem dotproductfast_iff :
    (∃ sum, dotproductfast u.1 v.1 = some sum ∧ dotproduct u.1 v.1 = some sum) ↔ addedTwice u.1 v.1 = 0 := by
  rw [dotproductfast_eq, dotproduct_eq]
  constructor
  · rintro ⟨sum, h1, h2⟩
    exact left_eq_add.mp (Option.some.inj (h2.trans h1.symm))
  · intro h
    exact ⟨_, by rw [h, add_zero], rfl⟩

end Dot

theorem fourth_added_twice : ¬ ∃ sum : ℤ, dotproductfast [1, 1, 1, 1] [1, 1, 1, 1] = some sum ∧
    dotproduct [1, 1, 1, 1] [1, 1, 1, 1] = some sum := by
  rintro ⟨sum, h1, h2⟩
  have hfast : dotproductfast [1, 1, 1, 1] [1, 1, 1, 1] = some (5 : ℤ) := by decide
  have hplain : dotproduct [1, 1, 1, 1] [1, 1, 1, 1] = some (4 : ℤ) := by decide
  have hsum : (5 : ℤ) = 4 := Option.some.inj (hfast.symm.trans (h1.trans (h2.symm.trans hplain)))
  exact absurd hsum (by decide)

/-! ## The averages -/

section Metrics

/-- The data of `metrics.go`, and of its reference, where `amounts` is `payments`. -/
structure UserData where
  ages : List UInt8
  amounts : List UInt32

/-- The sum of four accumulators and the length: what is divided, before it becomes `float64`. -/
def unrolledTotal (xs : List UInt64) : Option (UInt64 × ℕ) := do
  let (_, s) ← unrolledLoop (fun i => xs[i]?) 0 (xs.length / 4 * 4) 4 ⟨0, 0, 0, 0⟩
  return (s.sum0 + s.sum1 + s.sum2 + s.sum3, xs.length)

def averageAge (users : UserData) : Option (UInt64 × ℕ) := unrolledTotal (users.ages.map UInt8.toUInt64)

def averagePaymentAmount (users : UserData) : Option (UInt64 × ℕ) := unrolledTotal (users.amounts.map UInt32.toUInt64)

namespace Reference

def averageAge (users : UserData) : UInt64 × ℕ :=
  (users.ages.foldl (fun sum age => sum + age.toUInt64) 0, users.ages.length)

def averagePaymentAmount (users : UserData) : UInt64 × ℕ :=
  (users.amounts.foldl (fun sum p => sum + p.toUInt64) 0, users.amounts.length)

end Reference

/-- The unrolled and the plain loops divide the same, and that is the sum of the elements if it is below `2 ^ 64`. -/
structure Totals (users : UserData) : Prop where
  age : averageAge users = some (Reference.averageAge users)
  amount : averagePaymentAmount users = some (Reference.averagePaymentAmount users)
  ages : (users.ages.map UInt8.toNat).sum < 2 ^ 64 →
    (Reference.averageAge users).1.toNat = (users.ages.map UInt8.toNat).sum
  amounts : (users.amounts.map UInt32.toNat).sum < 2 ^ 64 →
    (Reference.averagePaymentAmount users).1.toNat = (users.amounts.map UInt32.toNat).sum

/-- The elements behind the last full round. -/
def rest {α : Type*} (xs : List α) : List α := xs.drop (xs.length / 4 * 4)

open scoped UInt64.CommRing

theorem sum_range_getD (xs : List UInt64) {n : ℕ} (hn : n ≤ xs.length) :
    ∑ i ∈ range n, xs.getD i 0 = (xs.take n).sum := by
  induction n with
  | zero => rfl
  | succ n ih =>
    rw [Finset.sum_range_succ, ih (Nat.le_of_succ_le hn), List.take_succ_eq_append_getElem hn, List.sum_append,
      List.sum_singleton, List.getD_eq_getElem _ _ hn]

/-- Only the full rounds are added. -/
theorem unrolledTotal_eq (xs : List UInt64) :
    unrolledTotal xs = some ((xs.take (xs.length / 4 * 4)).sum, xs.length) := by
  have hread : ∀ i < xs.length, xs[i]? = some (xs.getD i 0) := fun i hi => by
    rw [List.getElem?_eq_getElem hi, List.getD_eq_getElem _ _ hi]
  obtain ⟨k, s, h1, h2, h3, h4⟩ := unrolledLoop_spec hread 0 (xs.length / 4 * 4) (show 0 < 4 by decide) (by omega)
  rw [Nat.zero_add] at h1 h2
  have hk : k = xs.length / 4 := by
    cases k with
    | zero => omega
    | succ k =>
      have hlast := h3 k (Nat.lt_succ_self k)
      omega
  rw [unrolledTotal, h1, Option.bind_eq_bind, Option.bind_some]
  have htotal : s.sum0 + s.sum1 + s.sum2 + s.sum3 = _ := h4
  rw [sum_rounds_four, Nat.zero_add, hk, ← Finset.range_eq_Ico, sum_range_getD xs (Nat.div_mul_le_self _ _)] at htotal
  dsimp only
  rw [htotal]
  rfl

theorem foldl_add_eq {α : Type*} (c : α → UInt64) (xs : List α) (sum : UInt64) :
    xs.foldl (fun sum x => sum + c x) sum = sum + (xs.map c).sum := by
  induction xs generalizing sum with
  | nil => exact (add_zero sum).symm
  | cons x xs ih => rw [List.foldl_cons, ih, List.map_cons, List.sum_cons, add_assoc]

/-- The total in a register of 64 bits. -/
theorem toNat_sum (xs : List UInt64) : xs.sum.toNat = (xs.map UInt64.toNat).sum % 2 ^ 64 := by
  induction xs with
  | nil => rfl
  | cons x xs ih => rw [List.sum_cons, UInt64.toNat_add, ih, List.map_cons, List.sum_cons, Nat.add_mod_mod]

theorem unrolled_eq_plain_iff {xs : List UInt64} (hsmall : ∀ x ∈ xs, x.toNat < 2 ^ 32) :
    (xs.take (xs.length / 4 * 4)).sum = xs.sum ↔ ∀ x ∈ rest xs, x = 0 := by
  have hsplit : xs.sum = (xs.take (xs.length / 4 * 4)).sum + (rest xs).sum := by
    rw [rest, ← List.sum_append, List.take_append_drop]
  have hlen : (rest xs).length ≤ 3 := by
    rw [rest, List.length_drop]
    omega
  have hbound : ((rest xs).map UInt64.toNat).sum ≤ 3 * 2 ^ 32 := by
    have hle := List.sum_le_card_nsmul ((rest xs).map UInt64.toNat) (2 ^ 32) (by
      intro n hn
      obtain ⟨x, hx, rfl⟩ := List.mem_map.mp hn
      exact (hsmall x (List.mem_of_mem_drop hx)).le)
    rw [List.length_map, nsmul_eq_mul, Nat.cast_id] at hle
    exact hle.trans (Nat.mul_le_mul_right _ hlen)
  have hzero : ∀ x : UInt64, x.toNat = 0 ↔ x = 0 := fun x => by
    rw [← UInt64.toNat_inj]
    rfl
  rw [hsplit, left_eq_add, ← UInt64.toNat_inj, toNat_sum, Nat.mod_eq_of_lt (by omega), UInt64.toNat_zero,
    List.sum_eq_zero_iff_forall_eq_nat]
  simp only [List.mem_map, forall_exists_index, and_imp, forall_apply_eq_imp_iff₂, hzero]

/-- One of the two averages, for elements that are widened by `c`. -/
theorem unrolledTotal_iff {α : Type*} {c : α → UInt64} (hsmall : ∀ x, (c x).toNat < 2 ^ 32) (xs : List α) :
    unrolledTotal (xs.map c) = some (xs.foldl (fun sum x => sum + c x) 0, xs.length) ↔ ∀ x ∈ rest xs, c x = 0 := by
  have hmap : ∀ y ∈ xs.map c, y.toNat < 2 ^ 32 := by
    intro y hy
    obtain ⟨x, -, rfl⟩ := List.mem_map.mp hy
    exact hsmall x
  have hrest : rest (xs.map c) = (rest xs).map c := by rw [rest, rest, List.length_map, List.map_drop]
  have hiff := unrolled_eq_plain_iff hmap
  rw [hrest, List.forall_mem_map, List.length_map] at hiff
  rw [unrolledTotal_eq, foldl_add_eq, zero_add, List.length_map, ← hiff]
  constructor
  · intro h
    exact (Prod.mk.inj (Option.some.inj h)).1
  · intro h
    rw [h]

/-- The plain loop adds up the elements. -/
theorem toNat_foldl {α : Type*} {c : α → UInt64} {value : α → ℕ} (hc : ∀ x, (c x).toNat = value x) (xs : List α)
    (h : (xs.map value).sum < 2 ^ 64) : (xs.foldl (fun sum x => sum + c x) 0).toNat = (xs.map value).sum := by
  have hvalue : (xs.map c).map UInt64.toNat = xs.map value := by
    rw [List.map_map]
    exact List.map_congr_left fun x _ => hc x
  rw [foldl_add_eq, zero_add, toNat_sum, hvalue, Nat.mod_eq_of_lt h]

/-- **The totals** are right if and only if there are only zeros behind the last full round of each list. -/
theorem totals_iff (users : UserData) :
    Totals users ↔ (∀ age ∈ rest users.ages, age = 0) ∧ ∀ amount ∈ rest users.amounts, amount = 0 := by
  have hage : ∀ age : UInt8, age.toUInt64 = 0 ↔ age = 0 := fun age => by
    rw [← UInt64.toNat_inj, ← UInt8.toNat_inj, UInt8.toNat_toUInt64]
    rfl
  have hamount : ∀ amount : UInt32, amount.toUInt64 = 0 ↔ amount = 0 := fun amount => by
    rw [← UInt64.toNat_inj, ← UInt32.toNat_inj, UInt32.toNat_toUInt64]
    rfl
  have hages := unrolledTotal_iff (c := UInt8.toUInt64) (fun x => by
    rw [UInt8.toNat_toUInt64]
    exact x.toNat_lt.trans (by decide)) users.ages
  have hamounts := unrolledTotal_iff (c := UInt32.toUInt64) (fun x => by
    rw [UInt32.toNat_toUInt64]
    exact x.toNat_lt) users.amounts
  simp only [hage] at hages
  simp only [hamount] at hamounts
  rw [← hages, ← hamounts]
  exact ⟨fun h => ⟨h.age, h.amount⟩, fun ⟨h1, h2⟩ => ⟨h1, h2, toNat_foldl UInt8.toNat_toUInt64 _,
    toNat_foldl UInt32.toNat_toUInt64 _⟩⟩

theorem fifth_age_lost : ¬ Totals ⟨[1, 1, 1, 1, 1], []⟩ := by
  intro h
  have hage := h.age
  revert hage
  decide

end Metrics

end Csapp.Perf
