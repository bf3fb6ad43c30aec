import Mathlib.Data.Nat.Notation

/-!
# Lib.Loop — counted and conditional loops that may abort

`forRange lo hi body` is `for (i = lo; i < hi; i++)` over a loop state, `forStep` and `stepLoop` have another step, and
`whileLoop` is a loop with a condition and a fuel bound; `none` is an abort of the body, or of the fuel.  Each has one
rule: an invariant that the body keeps without aborting holds at the end, and the loop does not abort.
-/

namespace Csapp.Lib

variable {σ : Type*}

/-- `k` rounds of `body` from index `i` on. -/
def forRounds (body : ℕ → σ → Option σ) : ℕ → ℕ → σ → Option σ
  | 0, _, s => some s
  | k + 1, i, s => (body i s).bind (forRounds body k (i + 1))

/-- `for (i = lo; i < hi; i++) body`. -/
def forRange (lo hi : ℕ) (body : ℕ → σ → Option σ) (s : σ) : Option σ :=
  forRounds body (hi - lo) lo s

/-- `while (cond) body`, at most `fuel` tests of the condition. -/
def whileLoop (cond : σ → Bool) (body : σ → Option σ) : ℕ → σ → Option σ
  | 0, _ => none
  | fuel + 1, s => if cond s then (body s).bind (whileLoop cond body fuel) else some s

/-- `for (i = lo; i < hi; i += step) body`, with the index behind it. -/
def stepLoop (lo hi step : ℕ) (body : ℕ → σ → Option σ) (s : σ) : Option (ℕ × σ) :=
  whileLoop (fun p => decide (p.1 < hi)) (fun p => (body p.1 p.2).map fun s => (p.1 + step, s)) (hi - lo + 1) (lo, s)

/-- `for (i = lo; i < hi; i += step) body`. -/
def forStep (lo hi step : ℕ) (body : ℕ → σ → Option σ) (s : σ) : Option σ :=
  (whileLoop (fun p => decide (p.1 < hi)) (fun p => (body p.1 p.2).map fun s => (p.1 + step, s))
    (hi - lo + 1) (lo, s)).map Prod.snd

theorem forRounds_inv {body : ℕ → σ → Option σ} (I : ℕ → σ → Prop) : ∀ (k i : ℕ) (s : σ), I i s →
    (∀ j s, i ≤ j → j < i + k → I j s → ∃ s', body j s = some s' ∧ I (j + 1) s') →
    ∃ s', forRounds body k i s = some s' ∧ I (i + k) s'
  | 0, i, s, h0, _ => ⟨s, rfl, h0⟩
  | k + 1, i, s, h0, hstep => by
    obtain ⟨s₁, h1, h2⟩ := hstep i s (Nat.le_refl i) (by omega) h0
    obtain ⟨s', h3, h4⟩ := forRounds_inv I k (i + 1) s₁ h2 fun j s hj1 hj2 =>
      hstep j s (by omega) (by omega)
    refine ⟨s', by rw [forRounds, h1, Option.bind_some, h3], ?_⟩
    rwa [show i + 1 + k = i + (k + 1) by omega] at h4

/-- The rule for counted loops. -/
theorem forRange_inv {lo hi : ℕ} {s : σ} (body : ℕ → σ → Option σ) (I : ℕ → σ → Prop)
    (hle : lo ≤ hi) (h0 : I lo s)
    (hstep : ∀ i s, lo ≤ i → i < hi → I i s → ∃ s', body i s = some s' ∧ I (i + 1) s') :
    ∃ s', forRange lo hi body s = some s' ∧ I hi s' := by
  obtain ⟨s', h1, h2⟩ := forRounds_inv I (hi - lo) lo s h0 fun j s hj1 hj2 =>
    hstep j s hj1 (by omega)
  refine ⟨s', h1, ?_⟩
  rwa [show lo + (hi - lo) = hi by omega] at h2

/-- The rule for conditional loops: `μ` bounds the rounds that are left. -/
theorem whileLoop_inv (cond : σ → Bool) (body : σ → Option σ) (I : σ → Prop) (μ : σ → ℕ)
    (hstep : ∀ s, I s → cond s = true → ∃ s', body s = some s' ∧ I s' ∧ μ s' < μ s) :
    ∀ (fuel : ℕ) (s : σ), I s → μ s < fuel →
      ∃ s', whileLoop cond body fuel s = some s' ∧ I s' ∧ cond s' = false
  | 0, s, _, hf => by omega
  | fuel + 1, s, h0, hf => by
    cases hc : cond s with
    | false => exact ⟨s, by simp [whileLoop, hc], h0, hc⟩
    | true =>
      obtain ⟨s₁, h1, h2, h3⟩ := hstep s h0 hc
      obtain ⟨s', h4, h5, h6⟩ := whileLoop_inv cond body I μ hstep fuel s₁ h2 (by omega)
      exact ⟨s', by rw [whileLoop, if_pos hc, h1, Option.bind_some, h4], h5, h6⟩

/-- The rule for counted loops with a step: the index runs through `lo + k * step`. -/
theorem stepLoop_inv (lo hi : ℕ) {step : ℕ} {s : σ} (body : ℕ → σ → Option σ) (I : ℕ → σ → Prop) (hpos : 0 < step)
    (h0 : I 0 s) (hstep : ∀ k s, lo + k * step < hi → I k s →
      ∃ s', body (lo + k * step) s = some s' ∧ I (k + 1) s') :
    ∃ k s', stepLoop lo hi step body s = some (lo + k * step, s') ∧ hi ≤ lo + k * step ∧
      (∀ j < k, lo + j * step < hi) ∧ I k s' := by
  have hloop := whileLoop_inv (fun p : ℕ × σ => decide (p.1 < hi))
    (fun p => (body p.1 p.2).map fun s => (p.1 + step, s))
    (fun p => ∃ k, p.1 = lo + k * step ∧ (∀ j < k, lo + j * step < hi) ∧ I k p.2) (fun p => hi - p.1)
    (by
      rintro ⟨i, s⟩ ⟨k, hi', hbelow, hI⟩ hc
      dsimp only at hi' hI hc ⊢
      subst hi'
      have hlt := of_decide_eq_true hc
      obtain ⟨s', h1, h2⟩ := hstep k s hlt hI
      refine ⟨(lo + k * step + step, s'), by rw [h1]; rfl, ⟨k + 1, ?_, fun j hj => ?_, h2⟩, ?_⟩
      · rw [Nat.succ_mul, Nat.add_assoc]
      · rcases Nat.lt_succ_iff_lt_or_eq.mp hj with hj | rfl
        · exact hbelow j hj
        · exact hlt
      · dsimp only
        omega)
    (hi - lo + 1) (lo, s) ⟨0, by rw [Nat.zero_mul, Nat.add_zero], fun j hj => absurd hj (Nat.not_lt_zero j), h0⟩
    (Nat.lt_succ_self _)
  obtain ⟨⟨i, s'⟩, h1, ⟨k, h2, h3, h4⟩, h5⟩ := hloop
  dsimp only at h2 h4
  subst h2
  exact ⟨k, s', h1, Nat.not_lt.mp (of_decide_eq_false h5), h3, h4⟩

/-- The rule for a loop whose index is not used behind it. -/
theorem forStep_inv (lo hi : ℕ) {step : ℕ} {s : σ} (body : ℕ → σ → Option σ) (I : ℕ → σ → Prop) (hpos : 0 < step)
    (h0 : I lo s) (hstep : ∀ k s, lo + k * step < hi → I (lo + k * step) s →
      ∃ s', body (lo + k * step) s = some s' ∧ I (lo + k * step + step) s') :
    ∃ s', forStep lo hi step body s = some s' ∧ ∃ k, hi ≤ lo + k * step ∧ I (lo + k * step) s' := by
  have hnext : ∀ k, lo + (k + 1) * step = lo + k * step + step := fun k => by rw [Nat.succ_mul, Nat.add_assoc]
  obtain ⟨k, s', h1, h2, -, h3⟩ := stepLoop_inv lo hi body (fun k s => I (lo + k * step) s) hpos
    (by rw [Nat.zero_mul, Nat.add_zero]; exact h0) fun k s hlt hI => by
      rw [hnext]
      exact hstep k s hlt hI
  have hfor : forStep lo hi step body s = some s' := congrArg (Option.map Prod.snd) h1
  exact ⟨s', hfor, k, h2, h3⟩

end Csapp.Lib
