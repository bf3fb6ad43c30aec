import Mathlib.Data.List.Dedup
import Mathlib.Data.List.Infix
import Mathlib.Order.Lattice

/-!
# Lib.Recency — least recently used

`recent l` lists the elements of `l`, whose last one is the latest, without repetition and the most recent
one first; a further element goes to the front (`recent_concat`).  A cache of `n` places that keeps the most
recent elements holds `(recent l).take n`.

A cache with time stamps keeps no list: `Ranked` says that a list of its places is in the order of the
stamps.  A place with a new stamp goes to the front (`Ranked.touch`), and the place with the smallest stamp
is the last one (`Ranked.eq_concat`).
-/

namespace Csapp.Lib

section Recent

variable {α : Type*} [DecidableEq α] {a : α} {l : List α} {n : ℕ}

/-- Moves `a` to the front, or puts it there. -/
def touch (a : α) (l : List α) : List α := a :: l.erase a

/-- The elements without repetition, the latest one first. -/
def recent (l : List α) : List α := l.dedup.reverse

theorem nodup_recent (l : List α) : (recent l).Nodup := List.nodup_reverse.mpr (List.nodup_dedup l)

theorem dedup_concat (l : List α) (a : α) : (l ++ [a]).dedup = l.dedup.erase a ++ [a] := by
  induction l with
  | nil => rfl
  | cons b l ih =>
    rw [List.cons_append]
    by_cases hb : b ∈ l
    · rw [List.dedup_cons_of_mem (List.mem_append_left _ hb), List.dedup_cons_of_mem hb, ih]
    · rw [List.dedup_cons_of_notMem hb]
      by_cases hba : b = a
      · subst hba
        rw [List.dedup_cons_of_mem (List.mem_append_right _ List.mem_cons_self), ih, List.erase_cons_head,
          List.erase_of_not_mem (mt List.mem_dedup.mp hb)]
      · have hnot : b ∉ l ++ [a] := by
          rw [List.mem_append, List.mem_singleton]
          exact not_or.mpr ⟨hb, hba⟩
        rw [List.dedup_cons_of_notMem hnot, ih, List.erase_cons_tail (by simpa using hba), List.cons_append]

theorem recent_concat (l : List α) (a : α) : recent (l ++ [a]) = touch a (recent l) := by
  have hrev : (l.dedup.erase a).reverse = l.dedup.reverse.erase a := by
    rw [(List.nodup_dedup l).erase_eq_filter, (List.nodup_reverse.mpr (List.nodup_dedup l)).erase_eq_filter,
      List.filter_reverse]
  rw [recent, dedup_concat, List.reverse_append, List.reverse_singleton, List.singleton_append, hrev]
  rfl

/-- A use of an element in front. -/
theorem take_touch_of_mem (h : a ∈ l.take n) : (touch a l).take n = touch a (l.take n) := by
  cases n with
  | zero =>
    rw [List.take_zero] at h
    exact absurd h List.not_mem_nil
  | succ n =>
    have hl := List.length_erase_of_mem h
    have herase : l.erase a = (l.take (n + 1)).erase a ++ l.drop (n + 1) := by
      rw [← List.erase_append_left _ h, List.take_append_drop]
    rw [touch, touch, List.take_succ_cons, herase]
    congr 1
    rw [List.length_take] at hl
    rcases Nat.le_total (n + 1) l.length with hn | hn
    · rw [List.take_append_of_le_length (by omega), List.take_of_length_le (by omega)]
    · rw [List.drop_eq_nil_of_le hn, List.append_nil, List.take_of_length_le (by omega)]

/-- A use of an element that is not in front: it takes the place of the last one. -/
theorem take_touch_of_not_mem (h : a ∉ l.take (n + 1)) : (touch a l).take (n + 1) = a :: l.take n := by
  rw [touch, List.take_succ_cons]
  congr 1
  have hn : a ∉ l.take n := fun hmem => h (List.take_subset_take_left l (Nat.le_succ n) hmem)
  conv_lhs => rw [← List.take_append_drop n l, List.erase_append_right _ hn]
  rcases Nat.le_total n l.length with hle | hle
  · rw [List.take_append_of_le_length (by rw [List.length_take]; omega),
      List.take_of_length_le (by rw [List.length_take]; omega)]
  · rw [List.drop_eq_nil_of_le hle, List.erase_nil, List.append_nil, List.take_take, Nat.min_self]

/-- Only the last element in front falls out of it. -/
theorem getElem?_of_take_touch {b : α} (hin : a ∈ l.take (n + 1)) (hout : a ∉ (touch b l).take (n + 1)) :
    l[n]? = some a := by
  by_cases hb : b ∈ l.take (n + 1)
  · rw [take_touch_of_mem hb, touch, List.mem_cons, not_or] at hout
    exact absurd ((List.mem_erase_of_ne hout.1).mpr hin) hout.2
  · rw [take_touch_of_not_mem hb, List.mem_cons, not_or] at hout
    rw [List.take_add_one, List.mem_append, Option.mem_toList] at hin
    exact hin.resolve_left hout.2

theorem map_touch {β : Type*} [DecidableEq β] {f : α → β} (h : (l.map f).Nodup) (ha : a ∈ l) :
    (touch a l).map f = touch (f a) (l.map f) := by
  rw [touch, touch, List.map_cons]
  congr 1
  induction l with
  | nil => rfl
  | cons b l ih =>
    rw [List.map_cons, List.nodup_cons] at h
    by_cases hb : b = a
    · rw [hb, List.erase_cons_head, List.map_cons, List.erase_cons_head]
    · have hmem := (List.mem_cons.mp ha).resolve_left (Ne.symm hb)
      have hf : f b ≠ f a := fun he => h.1 (he ▸ List.mem_map_of_mem hmem)
      rw [List.erase_cons_tail (by simpa using hb), List.map_cons, List.map_cons,
        List.erase_cons_tail (by simpa using hf), ih h.2 hmem]

end Recent

/-! ## Time stamps -/

section Ranked

variable {ι τ : Type*} [LinearOrder τ] {valid : ι → Prop} {stamp : ι → τ} {order : List ι} {i : ι}

/-- The places in use, the latest stamp first. -/
structure Ranked (valid : ι → Prop) (stamp : ι → τ) (order : List ι) : Prop where
  mem : ∀ i, i ∈ order ↔ valid i
  sorted : order.Pairwise fun i j => stamp j < stamp i

namespace Ranked

theorem nodup (h : Ranked valid stamp order) : order.Nodup := by
  refine h.sorted.imp fun {i j} hlt he => ?_
  rw [he] at hlt
  exact lt_irrefl _ hlt

/-- A place gets a stamp that is later than all others. -/
theorem touch [DecidableEq ι] (h : Ranked valid stamp order) {now : τ} (hnow : ∀ j, valid j → stamp j < now) :
    Ranked (fun j => j = i ∨ valid j) (Function.update stamp i now) (touch i order) where
  mem j := by
    rw [Lib.touch, List.mem_cons, h.nodup.mem_erase_iff, h.mem]
    by_cases hj : j = i
    · exact iff_of_true (Or.inl hj) (Or.inl hj)
    · exact or_congr_right (and_iff_right hj)
  sorted := by
    have hold : ∀ j ∈ order.erase i, j ≠ i ∧ valid j := fun j hj => by
      rwa [h.nodup.mem_erase_iff, h.mem] at hj
    refine List.pairwise_cons.mpr ⟨fun j hj => ?_, ?_⟩
    · obtain ⟨hne, hv⟩ := hold j hj
      rw [Function.update_of_ne hne, Function.update_self]
      exact hnow j hv
    · refine (h.sorted.sublist List.erase_sublist).imp_of_mem fun {j k} hj hk hlt => ?_
      rwa [Function.update_of_ne (hold j hj).1, Function.update_of_ne (hold k hk).1]

/-- The place with the smallest stamp is the last one. -/
theorem eq_concat (h : Ranked valid stamp order) (hi : valid i) (hmin : ∀ j, valid j → stamp i ≤ stamp j) :
    ∃ front, order = front ++ [i] := by
  obtain ⟨s, t, rfl⟩ := List.append_of_mem ((h.mem i).mpr hi)
  cases t with
  | nil => exact ⟨s, rfl⟩
  | cons j t =>
    have hj : valid j := (h.mem j).mp (List.mem_append_right s (List.mem_cons_of_mem i List.mem_cons_self))
    have hlt : stamp j < stamp i :=
      (List.pairwise_cons.mp (List.pairwise_append.mp h.sorted).2.1).1 j List.mem_cons_self
    exact absurd hlt (not_lt.mpr (hmin j hj))

end Ranked

end Ranked

end Csapp.Lib
