import Csapp.Lib.Loop
import Mathlib.Data.Set.Lattice

/-!
# Lib.Cover — loops whose rounds work on cells of their own

`RunsOver I body S` says that `body` runs and adds the cells of `S` to those that `I` counts as done.  A loop then runs
over what its rounds run over, in any nesting; that the cells of a row-major matrix are different ones is `cell_inj`.
Where a round aborts in every state, the loop aborts (`forRange_eq_none`, `forStep_eq_none`).
-/

namespace Csapp.Lib

theorem cell_lt {i j n m : ℕ} (hi : i < n) (hj : j < m) : i * m + j < n * m := by
  calc i * m + j < i * m + m := by omega
    _ = (i + 1) * m := (Nat.succ_mul i m).symm
    _ ≤ n * m := Nat.mul_le_mul_right m hi

theorem cell_inj {i j i' j' m : ℕ} (hj : j < m) (hj' : j' < m) (h : i * m + j = i' * m + j') :
    i = i' ∧ j = j' := by
  have hdiv : ∀ a b, b < m → (a * m + b) / m = a := fun a b hb => by
    rw [Nat.mul_comm, Nat.mul_add_div (by omega), Nat.div_eq_of_lt hb, Nat.add_zero]
  have hi : i = i' := by rw [← hdiv i j hj, h, hdiv i' j' hj']
  subst hi
  exact ⟨rfl, by omega⟩

variable {σ κ : Type*} {I : Set κ → σ → Prop}

def RunsOver (I : Set κ → σ → Prop) (body : σ → Option σ) (S : Set κ) : Prop :=
  ∀ P s, I P s → ∃ s', body s = some s' ∧ I (P ∪ S) s'

theorem RunsOver.forRange {lo hi : ℕ} {body : ℕ → σ → Option σ} {S : ℕ → Set κ} (hle : lo ≤ hi)
    (h : ∀ i, lo ≤ i → i < hi → RunsOver I (body i) (S i)) :
    RunsOver I (forRange lo hi body) {x | ∃ i, lo ≤ i ∧ i < hi ∧ x ∈ S i} := by
  intro P s hI
  obtain ⟨s', hs', hI'⟩ := forRange_inv body (fun k t => I (P ∪ {x | ∃ i, lo ≤ i ∧ i < k ∧ x ∈ S i}) t) hle
    (by
      have hempty : {x | ∃ i, lo ≤ i ∧ i < lo ∧ x ∈ S i} = (∅ : Set κ) :=
        Set.eq_empty_of_forall_notMem fun x ⟨i, h1, h2, _⟩ => absurd h1 (Nat.not_le_of_lt h2)
      rw [hempty, Set.union_empty]
      exact hI)
    fun i t hlo hhi ht => by
      obtain ⟨t', ht', hI'⟩ := h i hlo hhi _ t ht
      refine ⟨t', ht', ?_⟩
      rw [Set.union_assoc] at hI'
      refine (congrArg (fun A => I (P ∪ A) t') ?_).mp hI'
      ext x
      constructor
      · rintro (⟨k, h1, h2, hx⟩ | hx)
        · exact ⟨k, h1, Nat.lt_succ_of_lt h2, hx⟩
        · exact ⟨i, hlo, Nat.lt_succ_self i, hx⟩
      · rintro ⟨k, h1, h2, hx⟩
        rcases Nat.lt_succ_iff_lt_or_eq.mp h2 with h2 | rfl
        · exact Or.inl ⟨k, h1, h2, hx⟩
        · exact Or.inr hx
  exact ⟨s', hs', hI'⟩

theorem RunsOver.forStep {lo hi step : ℕ} {body : ℕ → σ → Option σ} {S : ℕ → Set κ} (hpos : 0 < step)
    (h : ∀ k, lo + k * step < hi → RunsOver I (body (lo + k * step)) (S k)) :
    RunsOver I (forStep lo hi step body) {x | ∃ k, lo + k * step < hi ∧ x ∈ S k} := by
  intro P s hI
  obtain ⟨k, s', hs', hend, hbelow, hI'⟩ := stepLoop_inv lo hi body
    (fun k t => I (P ∪ {x | ∃ i < k, x ∈ S i}) t) hpos
    (by
      have hempty : {x | ∃ i < 0, x ∈ S i} = (∅ : Set κ) :=
        Set.eq_empty_of_forall_notMem fun x ⟨i, h1, _⟩ => absurd h1 (Nat.not_lt_zero i)
      rw [hempty, Set.union_empty]
      exact hI)
    fun k t hlt ht => by
      obtain ⟨t', ht', hI'⟩ := h k hlt _ t ht
      refine ⟨t', ht', ?_⟩
      rw [Set.union_assoc] at hI'
      refine (congrArg (fun A => I (P ∪ A) t') ?_).mp hI'
      ext x
      constructor
      · rintro (⟨i, h1, hx⟩ | hx)
        · exact ⟨i, Nat.lt_succ_of_lt h1, hx⟩
        · exact ⟨k, Nat.lt_succ_self k, hx⟩
      · rintro ⟨i, h1, hx⟩
        rcases Nat.lt_succ_iff_lt_or_eq.mp h1 with h1 | rfl
        · exact Or.inl ⟨i, h1, hx⟩
        · exact Or.inr hx
  refine ⟨s', congrArg (Option.map Prod.snd) hs', (congrArg (fun A => I (P ∪ A) s') ?_).mp hI'⟩
  ext x
  constructor
  · rintro ⟨i, hi, hx⟩
    exact ⟨i, hbelow i hi, hx⟩
  · rintro ⟨i, hi, hx⟩
    refine ⟨i, Nat.lt_of_not_le fun hle => ?_, hx⟩
    have := Nat.mul_le_mul_right step hle
    omega

theorem RunsOver.congr {body : σ → Option σ} {S T : Set κ} (h : RunsOver I body S) (hST : S = T) : RunsOver I body T :=
  hST ▸ h

theorem forRounds_eq_none {body : ℕ → σ → Option σ} : ∀ {k i : ℕ} {s : σ} {j : ℕ}, i ≤ j → j < i + k →
    (∀ t, body j t = none) → forRounds body k i s = none
  | 0, i, s, j, h1, h2, _ => absurd h1 (Nat.not_le_of_lt h2)
  | k + 1, i, s, j, h1, h2, hnone => by
    rw [forRounds]
    rcases Nat.eq_or_lt_of_le h1 with rfl | h1
    · rw [hnone s, Option.bind_none]
    · cases body i s with
      | none => rfl
      | some t => exact forRounds_eq_none h1 (by omega) hnone

theorem forRange_eq_none {lo hi j : ℕ} {body : ℕ → σ → Option σ} (s : σ) (hlo : lo ≤ j) (hhi : j < hi)
    (hnone : ∀ t, body j t = none) : forRange lo hi body s = none :=
  forRounds_eq_none hlo (by omega) hnone

theorem forStep_eq_none {lo hi step k : ℕ} {body : ℕ → σ → Option σ} (s : σ) (hk : lo + k * step < hi)
    (hnone : ∀ t, body (lo + k * step) t = none) : forStep lo hi step body s = none := by
  have hloop : ∀ (fuel i : ℕ) (t : σ), i ≤ k →
      whileLoop (fun p => decide (p.1 < hi)) (fun p => (body p.1 p.2).map fun s => (p.1 + step, s)) fuel
        (lo + i * step, t) = none := by
    intro fuel
    induction fuel with
    | zero => exact fun _ _ _ => rfl
    | succ fuel ih =>
      intro i t hik
      have hmul := Nat.mul_le_mul_right step hik
      rw [whileLoop, if_pos (decide_eq_true (show lo + i * step < hi by omega))]
      dsimp only
      rcases Nat.eq_or_lt_of_le hik with rfl | hlt
      · rw [hnone t]
        rfl
      · cases body (lo + i * step) t with
        | none => rfl
        | some t' =>
          have hnext : lo + i * step + step = lo + (i + 1) * step := by rw [Nat.succ_mul, Nat.add_assoc]
          rw [Option.map_some, Option.bind_some, hnext]
          exact ih (i + 1) t' hlt
  unfold forStep
  have h := hloop (hi - lo + 1) 0 s (Nat.zero_le k)
  simp only [Nat.zero_mul, Nat.add_zero] at h
  rw [h]
  rfl

end Csapp.Lib
