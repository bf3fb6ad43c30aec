import Mathlib.Data.List.Infix

/-!
# Lib.MaximalRun — the maximal runs of a list

`IsRun p l i j` says that the elements of `l` from `i` to before `j` make a maximal run of elements with `p`.  Two
runs are the same or stand apart (`IsRun.eq_or_apart`).  `RunsUpTo p l k runs` is the invariant of a scan that has
come to position `k`: an element without `p` is skipped, and a run is added as a whole (`RunsUpTo.skip`,
`RunsUpTo.push`).
-/

namespace Csapp.Lib

variable {α : Type*} {p : α → Bool} {l : List α} {i j i' j' k : ℕ}

structure IsRun (p : α → Bool) (l : List α) (i j : ℕ) : Prop where
  lt : i < j
  all : ∀ k, i ≤ k → k < j → l[k]?.any p = true
  left : ∀ k, k + 1 = i → l[k]?.any p = false
  right : l[j]?.any p = false

/-- The elements from `i` to before `j`. -/
def segment (l : List α) (i j : ℕ) : List α := (l.take j).drop i

theorem take_segment (l : List α) (h : i ≤ j) : l.take i ++ segment l i j = l.take j := by
  have htake : l.take i = (l.take j).take i := by rw [List.take_take, Nat.min_eq_left h]
  rw [segment, htake, List.take_append_drop]

theorem any_eq_true_iff : l[k]?.any p = true ↔ ∃ x, l[k]? = some x ∧ p x = true := by
  rw [Option.any_eq_true]

namespace IsRun

theorem le (h : IsRun p l i j) : j ≤ l.length := by
  have hlt := h.lt
  obtain ⟨x, hx, -⟩ := any_eq_true_iff.mp (h.all (j - 1) (by omega) (by omega))
  obtain ⟨hlen, -⟩ := List.getElem?_eq_some_iff.mp hx
  omega

theorem mem_segment (h : IsRun p l i j) : ∀ x ∈ segment l i j, p x = true := by
  intro x hx
  obtain ⟨n, hn⟩ := List.mem_iff_getElem?.mp hx
  rw [segment, List.getElem?_drop, List.getElem?_take] at hn
  obtain ⟨hlt, hn⟩ := Option.ite_none_right_eq_some.mp hn
  have hall := h.all (i + n) (Nat.le_add_right i n) hlt
  rwa [hn] at hall

/-- A run does not go on behind the start of another one. -/
theorem not_lt_of_lt (h : IsRun p l i j) (h' : IsRun p l i' j') (hi : i < i') : j < i' := by
  by_contra hle
  have hj : ¬ j < i' := hle
  -- the element in front of the second run is in the first one
  have hin := h.all (i' - 1) (by omega) (by omega)
  have hout := h'.left (i' - 1) (by omega)
  rw [hin] at hout
  cases hout

theorem eq_or_apart (h : IsRun p l i j) (h' : IsRun p l i' j') : (i = i' ∧ j = j') ∨ j < i' ∨ j' < i := by
  rcases Nat.lt_trichotomy i i' with hi | rfl | hi
  · exact Or.inr (Or.inl (h.not_lt_of_lt h' hi))
  · refine Or.inl ⟨rfl, ?_⟩
    have hlt := h.lt
    have hlt' := h'.lt
    rcases Nat.lt_trichotomy j j' with hj | hj | hj
    · have hin := h'.all j (by omega) hj
      rw [h.right] at hin
      cases hin
    · exact hj
    · have hin := h.all j' (by omega) hj
      rw [h'.right] at hin
      cases hin
  · exact Or.inr (Or.inr (h'.not_lt_of_lt h hi))

/-- At every start of a run there is one. -/
theorem exists_of_start (hleft : ∀ k, k + 1 = i → l[k]?.any p = false) (h : l[i]?.any p = true) :
    ∃ j, IsRun p l i j := by
  have hextend : ∀ n k, l.length - k = n → i < k → (∀ m, i ≤ m → m < k → l[m]?.any p = true) →
      ∃ j, IsRun p l i j := by
    intro n
    induction n with
    | zero =>
      intro k hn hk hall
      refine ⟨k, hk, hall, hleft, ?_⟩
      rw [List.getElem?_eq_none (by omega)]
      rfl
    | succ n ih =>
      intro k hn hk hall
      cases hp : l[k]?.any p with
      | false => exact ⟨k, hk, hall, hleft, hp⟩
      | true =>
        refine ih (k + 1) (by omega) (Nat.lt_succ_of_lt hk) ?_
        intro m him hm
        rcases Nat.lt_succ_iff_lt_or_eq.mp hm with hm | rfl
        · exact hall m him hm
        · exact hp
  refine hextend _ (i + 1) rfl (Nat.lt_succ_self i) ?_
  intro m him hm
  obtain rfl : m = i := by omega
  exact h

end IsRun

/-! ## A scan -/

/-- The runs in front of `k`, in order; none of the others starts in front of `k`. -/
structure RunsUpTo (p : α → Bool) (l : List α) (k : ℕ) (runs : List (ℕ × ℕ)) : Prop where
  mem : ∀ i j, (i, j) ∈ runs ↔ IsRun p l i j ∧ j ≤ k
  ordered : runs.Pairwise fun r r' => r.2 < r'.1
  cut : ∀ m, m + 1 = k → l[m]?.any p = true → l[k]?.any p = false
  text : (runs.map fun r => segment l r.1 r.2).flatten = (l.take k).filter p

namespace RunsUpTo

variable {runs : List (ℕ × ℕ)}

theorem start (p : α → Bool) (l : List α) : RunsUpTo p l 0 [] := by
  refine ⟨fun i j => iff_of_false List.not_mem_nil ?_, List.Pairwise.nil, ?_, rfl⟩
  · rintro ⟨h, hj⟩
    exact absurd h.lt (by omega)
  · intro m hm
    omega

/-- Where a run goes on, it has started. -/
theorem left_false (h : RunsUpTo p l k runs) (hk : l[k]?.any p = true) :
    ∀ m, m + 1 = k → l[m]?.any p = false := by
  intro m hm
  cases hp : l[m]?.any p with
  | false => rfl
  | true => exact hk.symm.trans (h.cut m hm hp)

theorem skip (h : RunsUpTo p l k runs) (hk : l[k]?.any p = false) : RunsUpTo p l (k + 1) runs := by
  refine ⟨fun i j => ?_, h.ordered, ?_, ?_⟩
  · rw [h.mem]
    refine and_congr_right fun hrun => ⟨fun hj => Nat.le_succ_of_le hj, fun hj => ?_⟩
    by_contra hlt
    have hij := hrun.lt
    have hin := hrun.all k (by omega) (by omega)
    rw [hk] at hin
    cases hin
  · intro m hm hp
    obtain rfl : m = k := by omega
    rw [hk] at hp
    cases hp
  · rw [h.text, List.take_add_one, List.filter_append]
    cases hx : l[k]? with
    | none => rw [Option.toList_none, List.filter_nil, List.append_nil]
    | some x =>
      rw [hx] at hk
      have hpx : p x = false := hk
      rw [Option.toList_some, List.filter_singleton, hpx, Bool.cond_false, List.append_nil]

theorem push (h : RunsUpTo p l k runs) (hrun : IsRun p l k j) : RunsUpTo p l j (runs ++ [(k, j)]) := by
  have hlt := hrun.lt
  refine ⟨fun i' j' => ?_, ?_, ?_, ?_⟩
  · rw [List.mem_append, List.mem_singleton, Prod.mk.injEq, h.mem]
    constructor
    · rintro (⟨h1, h2⟩ | ⟨rfl, rfl⟩)
      · exact ⟨h1, by omega⟩
      · exact ⟨hrun, Nat.le_refl _⟩
    · rintro ⟨h1, h2⟩
      have hlt' := h1.lt
      rcases h1.eq_or_apart hrun with heq | hfront | hbehind
      · exact Or.inr heq
      · exact Or.inl ⟨h1, Nat.le_of_lt hfront⟩
      · omega
  · rw [List.pairwise_append]
    refine ⟨h.ordered, List.pairwise_singleton _ _, ?_⟩
    intro r hr r' hr'
    obtain rfl := List.mem_singleton.mp hr'
    obtain ⟨h1, h2⟩ := (h.mem r.1 r.2).mp hr
    have hlt' := h1.lt
    rcases h1.eq_or_apart hrun with ⟨-, heq⟩ | hfront | hbehind
    · omega
    · exact hfront
    · omega
  · intro m hm hp
    exact hrun.right
  · rw [List.map_append, List.flatten_append, h.text, ← take_segment l (Nat.le_of_lt hlt), List.filter_append]
    refine congrArg _ ?_
    rw [List.filter_eq_self.mpr hrun.mem_segment]
    exact List.append_nil _

/-- At the end of the list these are all runs. -/
theorem complete (h : RunsUpTo p l k runs) (hk : l.length ≤ k) : ∀ i j, (i, j) ∈ runs ↔ IsRun p l i j := by
  intro i j
  rw [h.mem]
  exact and_iff_left_of_imp fun hrun => Nat.le_trans hrun.le hk

end RunsUpTo

end Csapp.Lib
