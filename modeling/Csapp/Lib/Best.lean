import Mathlib.Data.Nat.Notation
import Mathlib.Tactic.ByContra
import Mathlib.Tactic.SplitIfs

/-!
# Lib.Best — scans that keep the smallest item that fits

`bestScan` is the loop `if (fits(x) && size(x) < bestSize) { best = x; bestSize = size(x); }`.  It ends with
the `best` it started with, when no fitting item is smaller than `bestSize`, or with a smallest fitting one.
-/

namespace Csapp.Lib

variable {α : Type*} (fits : α → Bool) (size : α → ℕ)

def bestScan : List α → α → ℕ → α
  | [], best, _ => best
  | x :: xs, best, bestSize =>
    if fits x = true ∧ size x < bestSize then bestScan xs x (size x) else bestScan xs best bestSize

/-- `r` is an item that fits, below the bound, and no item that fits is smaller. -/
structure IsBest (xs : List α) (bestSize : ℕ) (r : α) : Prop where
  mem : r ∈ xs
  fit : fits r = true
  lt : size r < bestSize
  le : ∀ y ∈ xs, fits y = true → size r ≤ size y

/-- **What a scan ends with.** -/
theorem bestScan_cases (xs : List α) (best : α) (bestSize : ℕ) :
    (bestScan fits size xs best bestSize = best ∧ ∀ y ∈ xs, fits y = true → bestSize ≤ size y) ∨
      IsBest fits size xs bestSize (bestScan fits size xs best bestSize) := by
  induction xs generalizing best bestSize with
  | nil => exact Or.inl ⟨rfl, fun y hy => absurd hy List.not_mem_nil⟩
  | cons x xs ih =>
    rw [bestScan]
    split_ifs with hx
    · -- `x` is the best so far
      right
      rcases ih x (size x) with ⟨h1, h2⟩ | h
      · rw [h1]
        refine ⟨List.mem_cons_self, hx.1, hx.2, fun y hy hfit => ?_⟩
        rcases List.mem_cons.mp hy with rfl | hy
        · exact Nat.le_refl _
        · exact h2 y hy hfit
      · refine ⟨List.mem_cons_of_mem x h.mem, h.fit, Nat.lt_trans h.lt hx.2, fun y hy hfit => ?_⟩
        rcases List.mem_cons.mp hy with rfl | hy
        · exact Nat.le_of_lt h.lt
        · exact h.le y hy hfit
    · have hge : fits x = true → bestSize ≤ size x := by
        intro hfit
        by_contra hlt
        exact hx ⟨hfit, Nat.lt_of_not_le hlt⟩
      rcases ih best bestSize with ⟨h1, h2⟩ | h
      · refine Or.inl ⟨h1, fun y hy hfit => ?_⟩
        rcases List.mem_cons.mp hy with rfl | hy
        · exact hge hfit
        · exact h2 y hy hfit
      · refine Or.inr ⟨List.mem_cons_of_mem x h.mem, h.fit, h.lt, fun y hy hfit => ?_⟩
        rcases List.mem_cons.mp hy with rfl | hy
        · exact Nat.le_trans (Nat.le_of_lt h.lt) (hge hfit)
        · exact h.le y hy hfit

end Csapp.Lib
