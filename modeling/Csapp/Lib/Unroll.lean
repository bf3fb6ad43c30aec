import Csapp.Lib.Loop
import Mathlib.Algebra.BigOperators.Group.Finset.Basic
import Mathlib.Algebra.BigOperators.Intervals
import Mathlib.Tactic.Abel

/-!
# Lib.Unroll — sums with four accumulators

`sumLoop` adds the elements of an array in a loop, `unrolledLoop` adds four in a round, each to an accumulator of its
own.  What the accumulators hold together is the sum of the elements that the rounds read (`unrolledLoop_spec`): with a
step of 4 that is every element in front of the last index once (`sum_rounds_four`), and with a step of 3 the
first element of each round but the first is also the last one of the round before (`sum_rounds_three`).
-/

namespace Csapp.Lib

open Finset

/-- The four accumulators. -/
structure Sums (M : Type*) where
  sum0 : M
  sum1 : M
  sum2 : M
  sum3 : M

section Defs

variable {M : Type*} [Add M]

def Sums.total (s : Sums M) : M := s.sum0 + s.sum1 + s.sum2 + s.sum3

/-- `for (i = lo; i < hi; i += step)`, where `read i` is the element with the index `i`. -/
def unrolledLoop (read : ℕ → Option M) (lo hi step : ℕ) (s : Sums M) : Option (ℕ × Sums M) :=
  stepLoop lo hi step (fun i s => do
    let x0 ← read i
    let x1 ← read (i + 1)
    let x2 ← read (i + 2)
    let x3 ← read (i + 3)
    return ⟨s.sum0 + x0, s.sum1 + x1, s.sum2 + x2, s.sum3 + x3⟩) s

/-- `for (i = lo; i < hi; i++)`. -/
def sumLoop (read : ℕ → Option M) (lo hi : ℕ) (sum : M) : Option M :=
  forRange lo hi (fun i sum => do
    let x ← read i
    return sum + x) sum

end Defs

section Loops

variable {M : Type*} [AddCommMonoid M] {read : ℕ → Option M} {f : ℕ → M} {n : ℕ}

/-- What `k` rounds have read. -/
def rounds (f : ℕ → M) (lo step k : ℕ) : M :=
  ∑ j ∈ range k, (f (lo + j * step) + f (lo + j * step + 1) + f (lo + j * step + 2) + f (lo + j * step + 3))

theorem sumLoop_spec (hread : ∀ i < n, read i = some (f i)) {lo : ℕ} (hlo : lo ≤ n) (sum : M) :
    sumLoop read lo n sum = some (sum + ∑ i ∈ Ico lo n, f i) := by
  obtain ⟨sum', h1, h2⟩ := forRange_inv (s := sum) (fun i sum => do
      let x ← read i
      return sum + x) (fun i sum' => sum' = sum + ∑ j ∈ Ico lo i, f j) hlo
    (by rw [Ico_self, sum_empty, add_zero])
    (by
      rintro i s hle hlt rfl
      refine ⟨_, by rw [hread i hlt]; rfl, ?_⟩
      rw [sum_Ico_succ_top hle, add_assoc])
  rw [sumLoop, h1, h2]

theorem sumLoop_zero (hread : ∀ i < n, read i = some (f i)) : sumLoop read 0 n 0 = some (∑ i ∈ range n, f i) := by
  rw [sumLoop_spec hread (Nat.zero_le n), zero_add, range_eq_Ico]

/-- **The accumulators** hold together what has been read, if no round reads behind the array. -/
theorem unrolledLoop_spec (hread : ∀ i < n, read i = some (f i)) (lo hi : ℕ) {step : ℕ} (hpos : 0 < step)
    (hbound : ∀ k, lo + k * step < hi → lo + k * step + 3 < n) :
    ∃ k s, unrolledLoop read lo hi step ⟨0, 0, 0, 0⟩ = some (lo + k * step, s) ∧ hi ≤ lo + k * step ∧
      (∀ j < k, lo + j * step < hi) ∧ s.total = rounds f lo step k := by
  refine stepLoop_inv lo hi _ (fun k (s : Sums M) => s.total = rounds f lo step k) hpos ?_ ?_
  · rw [rounds, range_zero, sum_empty, Sums.total]
    dsimp only
    rw [add_zero, add_zero, add_zero]
  · intro k s hlt hs
    have hin := hbound k hlt
    refine ⟨_, by rw [hread _ (by omega), hread _ (by omega), hread _ (by omega), hread _ hin]; rfl, ?_⟩
    rw [rounds, sum_range_succ, ← rounds, ← hs, Sums.total, Sums.total]
    dsimp only
    abel

theorem sum_rounds_four (f : ℕ → M) (lo k : ℕ) : rounds f lo 4 k = ∑ i ∈ Ico lo (lo + k * 4), f i := by
  induction k with
  | zero => rw [Nat.zero_mul, Nat.add_zero, Ico_self]; rfl
  | succ k ih =>
    have hle : lo ≤ lo + k * 4 := Nat.le_add_right _ _
    rw [rounds, sum_range_succ, ← rounds, ih, Nat.succ_mul, ← Nat.add_assoc, sum_Ico_succ_top (by omega),
      sum_Ico_succ_top (by omega), sum_Ico_succ_top (by omega), sum_Ico_succ_top hle]
    abel

/-- The first elements of the rounds from the second one on are read twice. -/
theorem sum_rounds_three (f : ℕ → M) (k : ℕ) :
    rounds f 0 3 k = ∑ i ∈ range (k * 3), f i + ∑ j ∈ range k, f (3 * (j + 1)) := by
  induction k with
  | zero => exact (add_zero 0).symm
  | succ k ih =>
    have h3 : 3 * (k + 1) = k * 3 + 3 := by omega
    rw [rounds, sum_range_succ, ← rounds, ih, Nat.succ_mul, sum_range_succ, sum_range_succ, sum_range_succ,
      sum_range_succ _ k, h3, Nat.zero_add]
    abel

end Loops

end Csapp.Lib
