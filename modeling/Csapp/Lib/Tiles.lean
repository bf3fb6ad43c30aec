import Csapp.Lib.Loop

/-!
# Lib.Tiles — loops over tiles with machine integers

`tileLoop size max n body` is `for (t = 0; t < n; t += size)` over the tiles of `0, …, n - 1`, with indices up to
`max`: the end of a tile before it is cut at `n`, which is the next index, too, may overflow.  Where no end does, there
is one rule about what the tiles cover (`tileLoop_inv`); where one does, the loop has no result (`tileLoop_overflow`).
-/

namespace Csapp.Lib

variable {σ : Type*} {size max n : ℕ} {body : ℕ → ℕ → σ → Option σ} {s s' : σ}

/-- `min(t + size, n)`. -/
def tileEnd (size max t n : ℕ) : Option ℕ := if t + size ≤ max then some (min (t + size) n) else none

/-- `for (t = 0; t < n; t += size)`, with the end of the tile. -/
def tileLoop (size max n : ℕ) (body : ℕ → ℕ → σ → Option σ) (s : σ) : Option σ :=
  forStep 0 n size (fun t s => (tileEnd size max t n).bind fun t_end => body t t_end s) s

/-- The rule for the loop over tiles: the invariant is about what the tiles cover. -/
theorem tileLoop_inv (body : ℕ → ℕ → σ → Option σ) (hsize : 0 < size) (hn : n + size ≤ max + 1)
    (I : ℕ → σ → Prop) (h0 : I 0 s)
    (hbody : ∀ t t_end s, t < t_end → t_end ≤ n → I t s → ∃ s', body t t_end s = some s' ∧ I t_end s') :
    ∃ s', tileLoop size max n body s = some s' ∧ I n s' := by
  obtain ⟨s', h1, k, h2, h3⟩ := forStep_inv 0 n (s := s)
    (fun t s => (tileEnd size max t n).bind fun t_end => body t t_end s)
    (fun t s => I (min t n) s) hsize (by rwa [Nat.zero_min])
    (by
      intro k s hlt hI
      have hend : tileEnd size max (0 + k * size) n = some (min (0 + k * size + size) n) := if_pos (by omega)
      rw [Nat.min_eq_left (Nat.le_of_lt hlt)] at hI
      rw [hend, Option.bind_some]
      exact hbody _ _ s (by omega) (Nat.min_le_right _ _) hI)
  rw [Nat.min_eq_right h2] at h3
  exact ⟨s', h1, h3⟩

/-- A round of a loop that ends has ended. -/
theorem whileLoop_round {hi step : ℕ} (round : ℕ → σ → Option σ) {r : ℕ × σ} : ∀ (k fuel i : ℕ) (s : σ),
    whileLoop (fun p => decide (p.1 < hi)) (fun p => (round p.1 p.2).map fun s => (p.1 + step, s)) fuel (i, s) =
      some r →
    i + k * step < hi → ∃ t t', round (i + k * step) t = some t'
  | k, 0, i, s, h, _ => by cases h
  | k, fuel + 1, i, s, h, hlt => by
    have hcond : decide (i < hi) = true := decide_eq_true (Nat.lt_of_le_of_lt (Nat.le_add_right _ _) hlt)
    rw [whileLoop, if_pos hcond] at h
    obtain ⟨p, hp, h⟩ := Option.bind_eq_some_iff.mp h
    obtain ⟨t, ht, rfl⟩ := Option.map_eq_some_iff.mp hp
    cases k with
    | zero => exact ⟨s, t, by rwa [Nat.zero_mul, Nat.add_zero]⟩
    | succ k =>
      rw [Nat.succ_mul, Nat.add_comm _ step, ← Nat.add_assoc] at hlt ⊢
      exact whileLoop_round round k fuel (i + step) t h hlt

theorem tileLoop_round (h : tileLoop size max n body s = some s') {k : ℕ} (hk : k * size < n) :
    ∃ t_end t t', tileEnd size max (k * size) n = some t_end ∧ body (k * size) t_end t = some t' := by
  rw [tileLoop, forStep] at h
  obtain ⟨r, hr, -⟩ := Option.map_eq_some_iff.mp h
  obtain ⟨t, t', ht⟩ := whileLoop_round (fun t s => (tileEnd size max t n).bind fun t_end => body t t_end s)
    k _ 0 s hr (by rwa [Nat.zero_add])
  rw [Nat.zero_add] at ht
  obtain ⟨t_end, h1, h2⟩ := Option.bind_eq_some_iff.mp ht
  exact ⟨t_end, t, t', h1, h2⟩

/-- Where `size` divides the number of indices, the last tile of a dimension that is too large has its end behind the
largest one. -/
theorem tileLoop_overflow (hdvd : size ∣ max + 1) (hn : max + 1 < n + size) :
    tileLoop size max n body s = none := by
  obtain ⟨q, hq⟩ := hdvd
  rw [Nat.mul_comm] at hq
  obtain ⟨k, rfl⟩ : ∃ k, q = k + 1 := ⟨q - 1, by
    have hpos : q ≠ 0 := fun h => by rw [h, Nat.zero_mul] at hq; cases hq
    omega⟩
  rw [Nat.succ_mul] at hq
  refine Option.eq_none_iff_forall_ne_some.mpr fun s' h => ?_
  obtain ⟨t_end, t, t', h1, -⟩ := tileLoop_round h (k := k) (by omega)
  have hend : tileEnd size max (k * size) n = none := if_neg (by omega)
  cases hend.symm.trans h1

/-- The first round has to end. -/
theorem tileLoop_eq_none (hn : 0 < n) (hbody : ∀ t_end s, body 0 t_end s = none) :
    tileLoop size max n body s = none := by
  refine Option.eq_none_iff_forall_ne_some.mpr fun s' h => ?_
  obtain ⟨t_end, t, t', -, h2⟩ := tileLoop_round h (k := 0) (by rwa [Nat.zero_mul])
  rw [Nat.zero_mul, hbody] at h2
  cases h2

end Csapp.Lib
