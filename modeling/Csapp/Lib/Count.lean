import Mathlib.Algebra.BigOperators.Group.Finset.Piecewise
import Mathlib.Data.Fintype.Card

/-!
# Lib.Count — how many threads stand somewhere

`count p pc` is the number of threads `i` at a place `pc i` with the property `p`.  A step of one thread
changes it by what `p` says of the old and the new place (`count_update`), and two properties that agree
for all threads but one have the same number up to this one (`count_congr`).
-/

namespace Csapp.Lib

variable {ι σ : Type*} [Fintype ι] {p q : σ → Bool} {pc : ι → σ}

def count (p : σ → Bool) (pc : ι → σ) : ℕ := (Finset.univ.filter fun i => p (pc i) = true).card

theorem count_eq_sum (p : σ → Bool) (pc : ι → σ) : count p pc = ∑ i, (p (pc i)).toNat := by
  rw [count, Finset.card_filter]
  refine Finset.sum_congr rfl fun i _ => ?_
  cases p (pc i) with
  | true => rfl
  | false => rfl

theorem count_eq_zero : count p pc = 0 ↔ ∀ i, p (pc i) = false := by
  rw [count, Finset.card_eq_zero, Finset.filter_eq_empty_iff]
  simp only [Finset.mem_univ, forall_const, Bool.not_eq_true]

theorem count_le_one : count p pc ≤ 1 ↔ ∀ i j, p (pc i) = true → p (pc j) = true → i = j := by
  rw [count, Finset.card_le_one]
  simp only [Finset.mem_filter, Finset.mem_univ, true_and]
  exact ⟨fun h i j hi hj => h i hi j hj, fun h i hi j hj => h i j hi hj⟩

theorem count_pos (i : ι) (h : p (pc i) = true) : 0 < count p pc :=
  Finset.card_pos.mpr ⟨i, Finset.mem_filter.mpr ⟨Finset.mem_univ i, h⟩⟩

variable [DecidableEq ι]

theorem sum_congr_off {M : Type*} [AddCommMonoid M] {f g : ι → M} (i : ι) (h : ∀ j, j ≠ i → f j = g j) :
    (∑ j, f j) + g i = (∑ j, g j) + f i := by
  have hrest : ∑ j ∈ Finset.univ.erase i, f j = ∑ j ∈ Finset.univ.erase i, g j :=
    Finset.sum_congr rfl fun j hj => h j (Finset.ne_of_mem_erase hj)
  rw [← Finset.add_sum_erase Finset.univ f (Finset.mem_univ i),
    ← Finset.add_sum_erase Finset.univ g (Finset.mem_univ i), hrest, add_right_comm, add_comm (f i), add_right_comm]

/-- What the threads have in hand, as one of them goes to another place. -/
theorem sum_update {M : Type*} [AddCommMonoid M] (f : σ → M) (pc : ι → σ) (i : ι) (x : σ) :
    (∑ j, f (Function.update pc i x j)) + f (pc i) = (∑ j, f (pc j)) + f x := by
  have h := sum_congr_off (f := fun j => f (Function.update pc i x j)) (g := fun j => f (pc j)) i
    fun j hj => by rw [Function.update_of_ne hj]
  simpa only [Function.update_self] using h

/-- One thread goes to another place. -/
theorem count_update (p : σ → Bool) (pc : ι → σ) (i : ι) (x : σ) :
    count p (Function.update pc i x) + (p (pc i)).toNat = count p pc + (p x).toNat := by
  rw [count_eq_sum, count_eq_sum]
  exact sum_update (fun y => (p y).toNat) pc i x

/-- Properties that agree for all threads but one. -/
theorem count_congr (i : ι) (h : ∀ j, j ≠ i → p (pc j) = q (pc j)) :
    count p pc + (q (pc i)).toNat = count q pc + (p (pc i)).toNat := by
  rw [count_eq_sum, count_eq_sum]
  exact sum_congr_off i fun j hj => congrArg Bool.toNat (h j hj)

end Csapp.Lib
