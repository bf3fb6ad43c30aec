import Mathlib.Data.Nat.Notation
import Mathlib.Logic.Basic

/-!
# Lib.Machine — machines that run cycle after cycle

A cycle leads to a state in which the machine goes on or halts, or it aborts (`none`).  `cycles n` runs
`n` cycles, and stays where the machine has halted.  Two machines whose cycles keep a relation, as long
as a condition holds, go in lockstep (`cycles_related`).

For one machine, `Reaches`, `Halts` and `Aborts` hide the number of cycles: pieces of a run compose, and a
run has one end (`Stopped.unique`).
-/

namespace Csapp.Lib

variable {σ τ : Type*}

inductive Outcome (σ : Type*)
  | running (s : σ)
  | halted (s : σ)
  deriving DecidableEq

def Outcome.state : Outcome σ → σ
  | .running s => s
  | .halted s => s

/-- The outcome of `n` cycles. -/
def cycles (cycle : σ → Option (Outcome σ)) : ℕ → σ → Option (Outcome σ)
  | 0, s => some (.running s)
  | n + 1, s =>
    match cycle s with
    | none => none
    | some (.halted s') => some (.halted s')
    | some (.running s') => cycles cycle n s'

/-- Outcomes of one kind, in related states. -/
def Outcome.Related (R H : σ → τ → Prop) : Outcome σ → Outcome τ → Prop
  | .running s, .running t => R s t
  | .halted s, .halted t => H s t
  | _, _ => False

/-- **Lockstep**: `P` holds in every state of the first machine from which a cycle starts. -/
theorem cycles_related {cycle : σ → Option (Outcome σ)} {cycle' : τ → Option (Outcome τ)}
    {R H : σ → τ → Prop} {P : σ → Prop} (hstep : ∀ s t, R s t → P s →
      ∃ a b, cycle s = some a ∧ cycle' t = some b ∧ Outcome.Related R H a b) :
    ∀ n s t, R s t → (∀ k < n, ∀ s', cycles cycle k s = some (.running s') → P s') →
      ∃ a b, cycles cycle n s = some a ∧ cycles cycle' n t = some b ∧ Outcome.Related R H a b := by
  intro n
  induction n with
  | zero => exact fun s t hr _ => ⟨.running s, .running t, rfl, rfl, hr⟩
  | succ n ih =>
    intro s t hr hp
    obtain ⟨a, b, h1, h2, h3⟩ := hstep s t hr (hp 0 (Nat.succ_pos n) s rfl)
    match a, b, h3 with
    | .halted s', .halted t', h3 =>
      exact ⟨.halted s', .halted t', by rw [cycles, h1], by rw [cycles, h2], h3⟩
    | .running s', .running t', h3 =>
      obtain ⟨a', b', h4, h5, h6⟩ := ih s' t' h3 fun k hk s'' hs => by
        refine hp (k + 1) (Nat.succ_lt_succ hk) s'' ?_
        rw [cycles, h1]
        exact hs
      refine ⟨a', b', ?_, ?_, h6⟩
      · rw [cycles, h1]
        exact h4
      · rw [cycles, h2]
        exact h5

/-! ## Runs without their length -/

section Runs

variable {cycle : σ → Option (Outcome σ)} {s s' s'' : σ}

/-- Some number of cycles leads from `s` to `s'`. -/
def Reaches (cycle : σ → Option (Outcome σ)) (s s' : σ) : Prop :=
  ∃ n, ∀ m, cycles cycle (n + m) s = cycles cycle m s'

def Halts (cycle : σ → Option (Outcome σ)) (s s' : σ) : Prop := ∃ n, cycles cycle n s = some (.halted s')

def Aborts (cycle : σ → Option (Outcome σ)) (s : σ) : Prop := ∃ n, cycles cycle n s = none

theorem Reaches.refl (cycle : σ → Option (Outcome σ)) (s : σ) : Reaches cycle s s :=
  ⟨0, fun m => by rw [Nat.zero_add]⟩

theorem Reaches.trans (h : Reaches cycle s s') (h' : Reaches cycle s' s'') : Reaches cycle s s'' := by
  obtain ⟨n, hn⟩ := h
  obtain ⟨n', hn'⟩ := h'
  exact ⟨n + n', fun m => by rw [Nat.add_assoc, hn, hn']⟩

theorem Reaches.step (h : cycle s = some (.running s')) : Reaches cycle s s' :=
  ⟨1, fun m => by rw [Nat.add_comm 1 m, cycles, h]⟩

theorem Reaches.halts (h : Reaches cycle s s') (h' : Halts cycle s' s'') : Halts cycle s s'' := by
  obtain ⟨n, hn⟩ := h
  obtain ⟨m, hm⟩ := h'
  exact ⟨n + m, (hn m).trans hm⟩

theorem Reaches.aborts (h : Reaches cycle s s') (h' : Aborts cycle s') : Aborts cycle s := by
  obtain ⟨n, hn⟩ := h
  obtain ⟨m, hm⟩ := h'
  exact ⟨n + m, (hn m).trans hm⟩

theorem Halts.step (h : cycle s = some (.halted s')) : Halts cycle s s' :=
  ⟨1, by rw [cycles, h]⟩

theorem Halts.cases (h : Halts cycle s s') :
    cycle s = some (.halted s') ∨ ∃ t, cycle s = some (.running t) ∧ Halts cycle t s' := by
  obtain ⟨n, hn⟩ := h
  cases n with
  | zero => cases hn
  | succ n =>
    rw [cycles] at hn
    match hc : cycle s with
    | none =>
      rw [hc] at hn
      cases hn
    | some (.halted t) =>
      rw [hc] at hn
      exact .inl hn
    | some (.running t) =>
      rw [hc] at hn
      exact .inr ⟨t, rfl, n, hn⟩

theorem Halts.of_running (h : Halts cycle s s'') (hc : cycle s = some (.running s')) : Halts cycle s' s'' := by
  rcases h.cases with hc' | ⟨t, hc', ht⟩
  · cases hc.symm.trans hc'
  · cases hc.symm.trans hc'
    exact ht

theorem Halts.eq_of_halted (h : Halts cycle s s'') (hc : cycle s = some (.halted s')) : s'' = s' := by
  rcases h.cases with hc' | ⟨t, hc', -⟩
  · cases hc.symm.trans hc'
    rfl
  · cases hc.symm.trans hc'

theorem Halts.ne_none (h : Halts cycle s s') : cycle s ≠ none := by
  intro hc
  rcases h.cases with hc' | ⟨t, hc', -⟩
  · cases hc.symm.trans hc'
  · cases hc.symm.trans hc'

/-- Induction from the end of a run. -/
theorem Halts.induct {P : σ → Prop} (halt : ∀ s, cycle s = some (.halted s') → P s)
    (step : ∀ s t, cycle s = some (.running t) → P t → P s) (h : Halts cycle s s') : P s := by
  obtain ⟨n, hn⟩ := h
  induction n generalizing s with
  | zero => cases hn
  | succ n ih =>
    rw [cycles] at hn
    match hc : cycle s with
    | none =>
      rw [hc] at hn
      cases hn
    | some (.halted t) =>
      rw [hc] at hn
      cases hn
      exact halt s hc
    | some (.running t) =>
      rw [hc] at hn
      exact step s t hc (ih hn)

theorem Aborts.step (h : cycle s = none) : Aborts cycle s :=
  ⟨1, by rw [cycles, h]⟩

/-- The end of a run: the machine has halted or aborted. -/
def Stopped (r : Option (Outcome σ)) : Prop := ∀ s, r ≠ some (.running s)

theorem stopped_halted (s : σ) : Stopped (some (.halted s)) := fun _ h => nomatch h

theorem stopped_none : Stopped (none : Option (Outcome σ)) := fun _ h => nomatch h

theorem cycles_add {r : Option (Outcome σ)} (hr : Stopped r) :
    ∀ (n : ℕ) {s : σ}, cycles cycle n s = r → ∀ m, cycles cycle (n + m) s = r := by
  intro n
  induction n with
  | zero => exact fun {s} h => absurd h.symm (hr s)
  | succ n ih =>
    intro s h m
    rw [Nat.succ_add, cycles]
    rw [cycles] at h
    match hc : cycle s with
    | none => rwa [hc] at h
    | some (.halted t) => rwa [hc] at h
    | some (.running t) =>
      rw [hc] at h
      exact ih h m

theorem Stopped.unique {r r' : Option (Outcome σ)} (hr : Stopped r) (hr' : Stopped r') {n n' : ℕ}
    (h : cycles cycle n s = r) (h' : cycles cycle n' s = r') : r = r' := by
  have h₁ := cycles_add hr n h n'
  have h₂ := cycles_add hr' n' h' n
  rw [Nat.add_comm n' n] at h₂
  exact h₁.symm.trans h₂

theorem Halts.unique (h : Halts cycle s s') (h' : Halts cycle s s'') : s' = s'' := by
  obtain ⟨n, hn⟩ := h
  obtain ⟨m, hm⟩ := h'
  exact Outcome.halted.inj (Option.some.inj ((stopped_halted s').unique (stopped_halted s'') hn hm))

end Runs

end Csapp.Lib
