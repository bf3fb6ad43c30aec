import Mathlib.Data.List.Basic

/-!
# Lib.Interleave — interleavings of finitely many threads

`Interleaving ls s` says that `s` takes all elements of the lists `ls`, each list in its own order.  If
only one list has elements with a property, then these stand in every interleaving as they stand in that
list (`Interleaving.filter_eq`); running the lists one after the other is an interleaving
(`interleaving_flatten`).
-/

namespace Csapp.Lib

variable {α : Type*} {ls : List (List α)} {s : List α}

inductive Interleaving : List (List α) → List α → Prop
  | nil {ls : List (List α)} : (∀ l ∈ ls, l = []) → Interleaving ls []
  | cons {ls : List (List α)} {i : ℕ} {a : α} {l s : List α} :
      ls[i]? = some (a :: l) → Interleaving (ls.set i l) s → Interleaving ls (a :: s)

namespace Interleaving

/-- The elements of the lists, and no others. -/
theorem mem_iff (h : Interleaving ls s) {a : α} : a ∈ s ↔ ∃ l ∈ ls, a ∈ l := by
  induction h with
  | nil hnil =>
    refine ⟨fun h => absurd h (List.not_mem_nil), ?_⟩
    rintro ⟨l, hl, ha⟩
    rw [hnil l hl] at ha
    exact ha
  | @cons ls i b l s hi _ ih =>
    obtain ⟨hlt, hget⟩ := List.getElem?_eq_some_iff.mp hi
    rw [List.mem_cons, ih]
    constructor
    · rintro (rfl | ⟨l', hl', ha⟩)
      · exact ⟨_, List.mem_of_getElem? hi, List.mem_cons_self⟩
      · rcases List.mem_or_eq_of_mem_set hl' with hl' | rfl
        · exact ⟨l', hl', ha⟩
        · exact ⟨_, List.mem_of_getElem? hi, List.mem_cons_of_mem b ha⟩
    · rintro ⟨l', hl', ha⟩
      obtain ⟨j, hj, rfl⟩ := List.mem_iff_getElem.mp hl'
      by_cases hji : j = i
      · subst hji
        rw [hget] at ha
        rcases List.mem_cons.mp ha with rfl | ha
        · exact Or.inl rfl
        · exact Or.inr ⟨l, List.mem_set hlt l, ha⟩
      · refine Or.inr ⟨ls[j], ?_, ha⟩
        refine List.mem_iff_getElem.mpr ⟨j, by rwa [List.length_set], ?_⟩
        exact List.getElem_set_ne (Ne.symm hji) _

/-- **What only one list has** comes in the order of that list. -/
theorem filter_eq {p : α → Bool} (h : Interleaving ls s) {i : ℕ} {l : List α} (hi : ls[i]? = some l)
    (hother : ∀ j l', j ≠ i → ls[j]? = some l' → l'.filter p = []) : s.filter p = l.filter p := by
  induction h generalizing l with
  | nil hnil => rw [hnil l (List.mem_of_getElem? hi)]
  | @cons ls k b t s hk _ ih =>
    have hlt := (List.getElem?_eq_some_iff.mp hk).1
    by_cases hki : k = i
    · subst hki
      rw [hk] at hi
      obtain rfl := Option.some.inj hi
      have hrest := ih (List.getElem?_set_self hlt) fun j l' hj hl' =>
        hother j l' hj (by rwa [List.getElem?_set_ne (Ne.symm hj)] at hl')
      rw [List.filter_cons, List.filter_cons, hrest]
    · have hnone := hother k (b :: t) hki hk
      rw [List.filter_cons] at hnone
      have hb : ¬ p b = true := by
        intro hb
        rw [if_pos hb] at hnone
        cases hnone
      rw [if_neg hb] at hnone
      rw [List.filter_cons_of_neg hb]
      refine ih (by rwa [List.getElem?_set_ne hki]) fun j l' hj hl' => ?_
      by_cases hjk : j = k
      · subst hjk
        rw [List.getElem?_set_self hlt] at hl'
        obtain rfl := Option.some.inj hl'
        exact hnone
      · exact hother j l' hj (by rwa [List.getElem?_set_ne (Ne.symm hjk)] at hl')

/-- What no list has, the interleaving does not have. -/
theorem filter_eq_nil {p : α → Bool} (h : Interleaving ls s) (hall : ∀ l ∈ ls, l.filter p = []) :
    s.filter p = [] := by
  rw [List.filter_eq_nil_iff]
  intro a ha
  obtain ⟨l, hl, hal⟩ := h.mem_iff.mp ha
  exact List.filter_eq_nil_iff.mp (hall l hl) a hal

end Interleaving

/-- A list in front that has been run to its end. -/
theorem Interleaving.prepend (h : Interleaving ls s) (l : List α) : Interleaving (l :: ls) (l ++ s) := by
  induction l with
  | nil =>
    have hset : ∀ {ls : List (List α)} {s}, Interleaving ls s → Interleaving ([] :: ls) s := by
      intro ls s h
      induction h with
      | nil hnil => exact .nil (by simpa using hnil)
      | @cons ls i a l s hi _ ih => exact .cons (i := i + 1) (by simpa using hi) ih
    exact hset h
  | cons a l ih => exact .cons (i := 0) rfl ih

/-- One list after the other. -/
theorem interleaving_flatten (ls : List (List α)) : Interleaving ls ls.flatten := by
  induction ls with
  | nil => exact .nil (by simp)
  | cons l ls ih => exact ih.prepend l

/-- Picking out one element of a duplicate-free list. -/
theorem flatMap_ite_eq {ι β : Type*} [DecidableEq ι] {l : List ι} (hl : l.Nodup) (a : ι) (f : ι → List β) :
    (l.flatMap fun b => if b = a then f b else []) = if a ∈ l then f a else [] := by
  induction l with
  | nil => rfl
  | cons b l ih =>
    obtain ⟨hb, hl⟩ := List.nodup_cons.mp hl
    rw [List.flatMap_cons, ih hl]
    by_cases hba : b = a
    · subst hba
      rw [if_pos rfl, if_neg hb, if_pos List.mem_cons_self, List.append_nil]
    · rw [if_neg hba, List.nil_append]
      simp only [List.mem_cons, Ne.symm hba, false_or]

end Csapp.Lib
