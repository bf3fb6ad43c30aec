import Mathlib.Data.Nat.Notation

/-!
# Lib.Fuel — recursion with a bound on its depth

A function that is not structurally recursive is modelled with `fuel`, and gives the error `out` where the fuel does
not last.  `Approx out r r'` says that `r'` is `r`, unless `r` is this error; a function whose recursive calls are
joined by `bind` approximates itself with more fuel.
-/

namespace Csapp.Lib

universe u

variable {ε : Type*} {α β : Type u} {out : ε} {r r' r'' : Except ε α}

def Approx (out : ε) (r r' : Except ε α) : Prop := r = .error out ∨ r' = r

theorem Approx.refl (out : ε) (r : Except ε α) : Approx out r r := Or.inr rfl

theorem Approx.of_out : Approx out (.error out) r := Or.inl rfl

theorem Approx.trans (h : Approx out r r') (h' : Approx out r' r'') : Approx out r r'' := by
  rcases h with h | rfl
  · exact Or.inl h
  · exact h'

theorem Approx.bind {k k' : α → Except ε β} (h : Approx out r r') (hk : ∀ a, Approx out (k a) (k' a)) :
    Approx out (r >>= k) (r' >>= k') := by
  rcases h with rfl | rfl
  · exact Or.inl rfl
  · cases r' with
    | error e => exact Or.inr rfl
    | ok a => exact hk a

theorem Approx.ite {c : Prop} [Decidable c] {s s' : Except ε α} (h : Approx out r r') (h' : Approx out s s') :
    Approx out (if c then r else s) (if c then r' else s') := by
  by_cases hc : c
  · rwa [if_pos hc, if_pos hc]
  · rwa [if_neg hc, if_neg hc]

theorem Approx.eq_ok {a : α} (h : Approx out r r') (hr : r = .ok a) : r' = .ok a := by
  rcases h with h | h
  · cases hr.symm.trans h
  · exact h.trans hr

theorem Approx.eq_of_ne (h : Approx out r r') (hr : r ≠ .error out) : r' = r := h.resolve_left hr

theorem Approx.of_le {f : ℕ → Except ε α} (h : ∀ n, Approx out (f n) (f (n + 1))) {m n : ℕ} (hmn : m ≤ n) :
    Approx out (f m) (f n) := by
  induction hmn with
  | refl => exact Approx.refl out _
  | step _ ih => exact ih.trans (h _)

theorem bind_eq_ok {k : α → Except ε β} {b : β} : (r >>= k) = .ok b ↔ ∃ a, r = .ok a ∧ k a = .ok b := by
  cases r with
  | error e => exact ⟨nofun, fun ⟨_, h, _⟩ => nomatch h⟩
  | ok a => exact ⟨fun h => ⟨a, rfl, h⟩, fun ⟨_, h, h'⟩ => Except.ok.inj h ▸ h'⟩

theorem bind_ne_out {k : α → Except ε β} (hr : r ≠ .error out) (hk : ∀ a, r = .ok a → k a ≠ .error out) :
    (r >>= k) ≠ .error out := by
  cases r with
  | error e => exact fun h => hr (congrArg Except.error (Except.error.inj h))
  | ok a => exact hk a rfl

end Csapp.Lib
