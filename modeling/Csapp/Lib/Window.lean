import Mathlib.Data.Nat.ModEq
import Mathlib.Logic.Function.Basic

/-!
# Lib.Window — a queue in a circular array

`Window buf n start q` says that the cells of `buf` from `start` on, modulo `n`, hold `q`.  A cell is filled behind
the queue as long as it is shorter than `n` (`Window.push`), and emptied in front of it (`Window.pop`).
-/

namespace Csapp.Lib

variable {α : Type*} {buf : ℕ → α} {n start : ℕ} {a : α} {q : List α}

def Window (buf : ℕ → α) (n start : ℕ) (q : List α) : Prop :=
  ∀ k x, q[k]? = some x → buf ((start + k) % n) = x

theorem Window.nil (buf : ℕ → α) (n start : ℕ) : Window buf n start [] := fun _ _ h => nomatch h

/-- Fewer than `n` cells in a row are different cells. -/
theorem add_mod_ne {k l : ℕ} (hkl : k < l) (hl : l < n) : (start + k) % n ≠ (start + l) % n := by
  intro h
  have hmod : k ≡ l [MOD n] := Nat.ModEq.add_left_cancel' start h
  exact hkl.ne (hmod.eq_of_lt_of_lt (hkl.trans hl) hl)

theorem Window.push (h : Window buf n start q) (hlen : q.length < n) (a : α) :
    Window (Function.update buf ((start + q.length) % n) a) n start (q ++ [a]) := by
  intro k x hx
  rcases lt_trichotomy k q.length with hk | rfl | hk
  · rw [List.getElem?_append_left hk] at hx
    rw [Function.update_of_ne (add_mod_ne hk hlen)]
    exact h k x hx
  · rw [List.getElem?_concat_length] at hx
    rw [Function.update_self]
    exact Option.some.inj hx
  · rw [List.getElem?_append_right hk.le, List.getElem?_eq_none (Nat.sub_pos_of_lt hk)] at hx
    cases hx

theorem Window.pop (h : Window buf n start (a :: q)) : buf (start % n) = a ∧ Window buf n (start + 1) q := by
  refine ⟨h 0 a rfl, fun k x hx => ?_⟩
  rw [Nat.add_assoc, Nat.add_comm 1 k]
  exact h (k + 1) x hx

end Csapp.Lib
