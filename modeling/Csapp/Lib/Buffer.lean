import Mathlib.Data.List.Basic
import Mathlib.Algebra.Order.Ring.Nat

/-!
# Lib.Buffer — arrays that are filled from the front

`writeAt buf i s` copies `s` to position `i` of an array, where it fits.  An array keeps its length, and what has been
written one behind the other is what it holds in front (`take_writeAt`).
-/

namespace Csapp.Lib

variable {α : Type*} {buf buf' s : List α} {i : ℕ}

/-- The array after a copy; `none` is a write behind its end. -/
def writeAt (buf : List α) (i : ℕ) (s : List α) : Option (List α) :=
  if i + s.length ≤ buf.length then some (buf.take i ++ (s ++ buf.drop (i + s.length))) else none

theorem writeAt_le (h : i + s.length ≤ buf.length) :
    writeAt buf i s = some (buf.take i ++ (s ++ buf.drop (i + s.length))) := if_pos h

/-- A copy behind what is there already. -/
theorem writeAt_append (done : List α) {rest : List α} (h : s.length ≤ rest.length) :
    writeAt (done ++ rest) done.length s = some (done ++ (s ++ rest.drop s.length)) := by
  have hle : done.length + s.length ≤ (done ++ rest).length := by
    rw [List.length_append]
    exact Nat.add_le_add_left h _
  rw [writeAt_le hle, List.take_left, List.drop_append, List.drop_eq_nil_of_le (Nat.le_add_right _ _),
    Nat.add_sub_cancel_left, List.nil_append]

theorem writeAt_eq_some (h : writeAt buf i s = some buf') :
    i + s.length ≤ buf.length ∧ buf' = buf.take i ++ (s ++ buf.drop (i + s.length)) := by
  obtain ⟨hle, h⟩ := Option.ite_none_right_eq_some.mp h
  exact ⟨hle, (Option.some.inj h).symm⟩

theorem length_writeAt (h : writeAt buf i s = some buf') : buf'.length = buf.length := by
  obtain ⟨hle, rfl⟩ := writeAt_eq_some h
  rw [List.length_append, List.length_append, List.length_take, List.length_drop]
  omega

/-- What stands in front of the end of the copy. -/
theorem take_writeAt (h : writeAt buf i s = some buf') : buf'.take (i + s.length) = buf.take i ++ s := by
  obtain ⟨hle, rfl⟩ := writeAt_eq_some h
  have hlen : (buf.take i ++ s).length = i + s.length := by
    rw [List.length_append, List.length_take]
    omega
  rw [← List.append_assoc, ← hlen, List.take_left]

end Csapp.Lib
