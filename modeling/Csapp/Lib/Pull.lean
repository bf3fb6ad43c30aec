import Mathlib.Data.List.Range

/-!
# Lib.Pull — sources that are read one item at a time

A call of `next` returns something and a new state, or aborts.  `Serves` says that a call returns the first
of the items that a state still has, as `out` presents it, and leaves the others; at the end it presents
`none` and stays there.  Then any number of calls present the items in their order and `none` from then on.
-/

namespace Csapp.Lib

variable {σ ρ τ : Type*}

/-- What `k` calls return. -/
def pulls (next : σ → Option (ρ × σ)) : ℕ → σ → Option (List ρ)
  | 0, _ => some []
  | k + 1, s => (next s).bind fun x => (pulls next k x.2).map (x.1 :: ·)

/-- In the states of `I`, `next` serves the items `items s`. -/
structure Serves (next : σ → Option (ρ × σ)) (out : Option τ → ρ) (I : σ → Prop) (items : σ → List τ) : Prop where
  step : ∀ s, I s → ∃ s', next s = some (out (items s).head?, s') ∧ I s' ∧ items s' = (items s).tail

/-- **Any number of calls**: the items one after the other, and then `none` again and again. -/
theorem Serves.pulls_eq {next : σ → Option (ρ × σ)} {out : Option τ → ρ} {I : σ → Prop} {items : σ → List τ}
    (h : Serves next out I items) {s : σ} (hs : I s) (k : ℕ) :
    pulls next k s = some ((List.range k).map fun i => out (items s)[i]?) := by
  induction k generalizing s with
  | zero => rfl
  | succ k ih =>
    obtain ⟨s', h1, h2, h3⟩ := h.step s hs
    have htail : ∀ i, (items s')[i]? = (items s)[i + 1]? := by
      intro i
      rw [h3, List.getElem?_tail]
    rw [pulls, h1, Option.bind_some, ih h2, Option.map_some, List.range_succ_eq_map, List.map_cons, List.map_map,
      ← List.head?_eq_getElem?]
    simp only [htail]
    rfl

end Csapp.Lib
