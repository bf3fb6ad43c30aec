import Mathlib.Data.List.Nodup

/-!
# Lib.Dispense — values handed out one after another

`Dispensed value log out` says that the `k`-th entry of `log` is `value k`, with its taker, and that `out i` is what
`i` has taken, in this order.  Where no value is repeated, no two takers have the same one (`Dispensed.unique`), and
where the values go up, each taker sees them go up (`Dispensed.pairwise`).
-/

namespace Csapp.Lib

variable {ι α : Type*} [DecidableEq ι] {value : ℕ → α} {log : List (ι × α)} {out out' : ι → List α} {i j : ι} {a : α}

structure Dispensed (value : ℕ → α) (log : List (ι × α)) (out : ι → List α) : Prop where
  values : log.map Prod.snd = (List.range log.length).map value
  taken : ∀ i, (log.filter fun e => e.1 = i).map Prod.snd = out i

namespace Dispensed

theorem nil (value : ℕ → α) : Dispensed value ([] : List (ι × α)) fun _ => [] := ⟨rfl, fun _ => rfl⟩

theorem append (h : Dispensed value log out) (hi : out' i = out i ++ [value log.length])
    (hother : ∀ j, j ≠ i → out' j = out j) : Dispensed value (log ++ [(i, value log.length)]) out' := by
  refine ⟨?_, fun j => ?_⟩
  · rw [List.map_append, h.values, List.length_append, List.length_singleton, List.range_succ, List.map_append]
    rfl
  · rw [List.filter_append, List.map_append, h.taken j]
    by_cases hj : j = i
    · rw [hj, hi, List.filter_cons_of_pos (by simp only [decide_true])]
      rfl
    · rw [hother j hj, List.filter_cons_of_neg (by simpa using Ne.symm hj)]
      exact List.append_nil _

theorem mem_iff (h : Dispensed value log out) : a ∈ out i ↔ (i, a) ∈ log := by
  rw [← h.taken i, List.mem_map]
  constructor
  · rintro ⟨⟨j, b⟩, he, rfl⟩
    obtain ⟨hmem, hj⟩ := List.mem_filter.mp he
    obtain rfl : j = i := of_decide_eq_true hj
    exact hmem
  · intro he
    exact ⟨(i, a), List.mem_filter.mpr ⟨he, decide_eq_true rfl⟩, rfl⟩

theorem pairwise (h : Dispensed value log out) {R : α → α → Prop}
    (hR : ∀ k l, k < l → l < log.length → R (value k) (value l)) (i : ι) : (out i).Pairwise R := by
  have hall : (log.map Prod.snd).Pairwise R := by
    rw [h.values, List.pairwise_map]
    refine List.pairwise_lt_range.imp_of_mem fun {k l} _ hl hkl => hR k l hkl (List.mem_range.mp hl)
  rw [← h.taken i]
  exact hall.sublist (List.filter_sublist.map Prod.snd)

theorem unique (h : Dispensed value log out) (hne : ∀ k l, k < l → l < log.length → value k ≠ value l)
    (hi : a ∈ out i) (hj : a ∈ out j) : i = j := by
  have hnodup : (log.map Prod.snd).Nodup := by
    rw [h.values]
    refine List.pairwise_map.mpr (List.pairwise_lt_range.imp_of_mem fun {k l} _ hl hkl => ?_)
    exact hne k l hkl (List.mem_range.mp hl)
  have heq := List.inj_on_of_nodup_map hnodup (h.mem_iff.mp hi) (h.mem_iff.mp hj) rfl
  exact (Prod.mk.inj heq).1

end Dispensed

end Csapp.Lib
