import Csapp.Lsm.Chains

/-!
# Lsm.Search — the descent finds the predecessor on every level

For a key, `pred i` is the last node of level `i` with a smaller key (or `Head`).  One inner loop goes
from `pred (i + 1)` to `pred i`, so a descent ends at `pred 0` and fills `update` with all predecessors;
`Search` returns the node behind `pred 0`, the first with a key that is not smaller.
-/

namespace Csapp.Lsm.SkipList

open Csapp.Lib

variable {sl : SkipList} {xs : List ℕ} {key : Bytes} {i : ℕ}

/-- The last node of level `i` with a key below `key`. -/
def pred (sl : SkipList) (key : Bytes) (xs : List ℕ) (i : ℕ) : ℕ :=
  (sl.above i (below sl.keyOf key xs)).getLastD head

/-- The inner loop goes over the nodes with smaller keys. -/
theorem advance_spec {l r : List ℕ} (hl : ∀ x ∈ l, sl.keyOf x < key) (hr : ∀ x ∈ r, key ≤ sl.keyOf x) :
    ∀ {current fuel : ℕ}, Links (sl.next i) current (l ++ r) →
      (∀ x ∈ current :: (l ++ r), i < sl.height x) → l.length < fuel →
      sl.advance key i fuel current = some (l.getLastD current) := by
  induction l with
  | nil =>
    intro current fuel hp hh hf
    obtain ⟨n, rfl⟩ : ∃ n, fuel = n + 1 := ⟨fuel - 1, by simp at hf; omega⟩
    have hfw := forwards_eq (hh current List.mem_cons_self)
    cases r with
    | nil =>
      rw [hp.next_eq] at hfw
      simp [advance, hfw]
    | cons y r =>
      obtain ⟨node, h1, -, h3, -⟩ := node_of_height (hh y (by simp))
      have hge : ¬ bytesCompare node.key key < 0 := by
        rw [bytesCompare_lt, h3, not_lt]; exact hr y List.mem_cons_self
      rw [hp.next_eq] at hfw
      simp [advance, hfw, h1, hge]
  | cons y l ih =>
    intro current fuel hp hh hf
    obtain ⟨n, rfl⟩ : ∃ n, fuel = n + 1 := ⟨fuel - 1, by omega⟩
    have hfw := forwards_eq (hh current List.mem_cons_self)
    obtain ⟨node, h1, -, h3, -⟩ := node_of_height (hh y (by simp))
    have hlt : bytesCompare node.key key < 0 := by
      rw [bytesCompare_lt, h3]; exact hl y List.mem_cons_self
    have hrest := ih (fun x hx => hl x (List.mem_cons_of_mem y hx)) hp.2
      (fun x hx => hh x (List.mem_cons_of_mem current hx)) (Nat.lt_of_succ_lt_succ hf)
    rw [hp.next_eq] at hfw
    simp only [advance, hfw, List.cons_append, List.head?_cons, Option.bind_eq_bind, Option.bind_some,
      h1, if_pos hlt, hrest, List.getLastD_cons]

/-! ## Predecessors -/

section Pred

theorem above_split (sl : SkipList) (key : Bytes) (i : ℕ) (xs : List ℕ) : sl.above i xs =
    sl.above i (below sl.keyOf key xs) ++ sl.above i (atLeast sl.keyOf key xs) := by
  rw [← above_append, below_append_atLeast]

theorem pred_mem : sl.pred key xs i ∈ head :: sl.above i (below sl.keyOf key xs) :=
  List.getLastD_mem_cons

variable (h : Inv sl xs)
include h

theorem Inv.height_pred (hi : i < MaxLevel) : i < sl.height (sl.pred key xs i) := by
  have hmem : sl.pred key xs i ∈ _ := pred_mem
  rcases List.mem_cons.mp hmem with hp | hp
  · rw [hp, h.height_head]; exact hi
  · exact (mem_above.mp hp).2

theorem Inv.pred_of_level_le (hi : sl.level ≤ i) : sl.pred key xs i = head := by
  rw [pred, h.above_of_le hi below_subset]
  rfl

/-- Behind the predecessor come the nodes whose key is not smaller. -/
theorem Inv.path_pred (hi : i < MaxLevel) :
    Links (sl.next i) (sl.pred key xs i) (sl.above i (atLeast sl.keyOf key xs)) := by
  have hp := h.path i hi
  rw [above_split sl key i xs] at hp
  exact hp.suffix

/-- One inner loop. -/
theorem Inv.advance_pred (hi : i < MaxLevel) :
    sl.advance key i (sl.nodes.length + 1) (sl.pred key xs (i + 1)) = some (sl.pred key xs i) := by
  -- the node of level `i + 1` where the loop starts is also on level `i`
  obtain ⟨l₁, l₂, h1, h2⟩ := getLastD_filter_split
    (p := fun x => decide (i + 1 < sl.height x)) (q := fun x => decide (i < sl.height x))
    (fun x hx => decide_eq_true (Nat.lt_of_succ_lt (of_decide_eq_true hx))) (below sl.keyOf key xs) head
  have hsplit : sl.above i xs = l₁ ++ (l₂ ++ sl.above i (atLeast sl.keyOf key xs)) := by
    rw [above_split sl key i xs, above, h1, List.append_assoc]
  have hmem : ∀ x ∈ l₁ ++ l₂, x ∈ sl.above i (below sl.keyOf key xs) := fun x hx => by
    rw [above, h1]; exact hx
  have hp := h.path i hi
  rw [hsplit] at hp
  have hlen := h.length_le
  have hle : (sl.above i xs).length ≤ xs.length := List.length_filter_le _ _
  rw [hsplit] at hle
  simp only [List.length_append] at hle
  have hstart : l₁.getLastD head = sl.pred key xs (i + 1) := h2
  have hend : l₂.getLastD (sl.pred key xs (i + 1)) = sl.pred key xs i := by
    rw [← hstart, ← getLastD_append, ← h1]; rfl
  rw [← hend, ← hstart]
  refine advance_spec (r := sl.above i (atLeast sl.keyOf key xs)) (fun x hx => ?_) (fun x hx => ?_)
    hp.suffix (fun x hx => ?_) (by omega)
  · exact lt_of_mem_below (mem_above.mp (hmem x (List.mem_append_right _ hx))).1
  · exact h.sorted.le_of_mem_atLeast (mem_above.mp hx).1
  · rcases List.mem_cons.mp hx with rfl | hx
    · rcases List.mem_cons.mp (List.getLastD_mem_cons (l := l₁) (a := head)) with hh | hh
      · rw [hh, h.height_head]; exact hi
      · exact (mem_above.mp (hmem _ (List.mem_append_left _ hh))).2
    · have hx' : x ∈ sl.above i xs := by rw [hsplit]; exact List.mem_append_right _ hx
      exact (mem_above.mp hx').2

/-- The descent of `Search` and `Update`. -/
theorem Inv.descend_pred (key : Bytes) : ∀ i ≤ MaxLevel,
    sl.descend key i (sl.pred key xs i) = some (sl.pred key xs 0)
  | 0, _ => rfl
  | i + 1, hi => by
    rw [descend, h.advance_pred hi, Option.bind_eq_bind, Option.bind_some]
    exact Inv.descend_pred key i (by omega)

/-- `update` has the predecessors of the levels in `[lo, hi)`. -/
def Recorded (sl : SkipList) (key : Bytes) (xs : List ℕ) (update : List (Option ℕ)) (lo hi : ℕ) : Prop :=
  update.length = MaxLevel ∧ ∀ j, lo ≤ j → j < hi → update[j]? = some (some (sl.pred key xs j))

/-- The descent of `Insert` and `Delete`. -/
theorem Inv.descendUpdate_pred {hi : ℕ} : ∀ i ≤ MaxLevel, ∀ update,
    Recorded sl key xs update i hi → ∃ update',
      sl.descendUpdate key i (sl.pred key xs i) update = some (sl.pred key xs 0, update') ∧
        Recorded sl key xs update' 0 hi
  | 0, _, update, hu => ⟨update, rfl, hu⟩
  | i + 1, hi', update, hu => by
    have hlt : i < update.length := by rw [hu.1]; exact hi'
    have hu' : Recorded sl key xs (update.set i (some (sl.pred key xs i))) i hi := by
      refine ⟨by simp [hu.1], fun j h1 h2 => ?_⟩
      by_cases hj : i = j
      · subst hj; simp [hlt]
      · rw [List.getElem?_set_ne hj]; exact hu.2 j (by omega) h2
    obtain ⟨update', h1, h2⟩ := Inv.descendUpdate_pred i (by omega) _ hu'
    refine ⟨update', ?_, h2⟩
    simp only [descendUpdate, h.advance_pred hi', Option.bind_eq_bind, Option.bind_some, setUpdate,
      if_pos hlt, h1]

/-- The whole descent of `Search` and `Update`. -/
theorem Inv.descend_spec (key : Bytes) : sl.descend key sl.level head = some (sl.pred key xs 0) := by
  have := h.descend_pred key sl.level h.level_le
  rwa [h.pred_of_level_le le_rfl] at this

/-- The whole descent of `Insert` and `Delete`. -/
theorem Inv.descendUpdate_spec (key : Bytes) : ∃ update,
    sl.descendUpdate key sl.level head (List.replicate sl.maxLevel none) =
      some (sl.pred key xs 0, update) ∧ Recorded sl key xs update 0 sl.level := by
  have hu : Recorded sl key xs (List.replicate sl.maxLevel none) sl.level sl.level :=
    ⟨by rw [List.length_replicate, h.maxLevel_eq], fun j h1 h2 => by omega⟩
  have := h.descendUpdate_pred sl.level h.level_le _ hu
  rwa [h.pred_of_level_le le_rfl] at this

/-- The link behind the predecessor of level 0. -/
theorem Inv.forwards_pred_zero :
    sl.forwards (sl.pred key xs 0) 0 = some (atLeast sl.keyOf key xs).head? := by
  rw [forwards_eq (h.height_pred (by decide)), (h.path_pred (by decide)).next_eq]
  congr 2
  exact List.filter_eq_self.mpr fun x hx => decide_eq_true (h.pos x (atLeast_subset hx))

/-- The node that a search looks at. -/
theorem Inv.node_of_head {x : ℕ} (hx : (atLeast sl.keyOf key xs).head? = some x) :
    x ∈ xs ∧ key ≤ sl.keyOf x ∧ ∃ node, sl.nodes[x]? = some node ∧ node.key = sl.keyOf x ∧
      node.value = sl.valueOf x := by
  have hmem := List.mem_of_mem_head? hx
  obtain ⟨node, h1, -, h3, h4⟩ := node_of_height (h.pos x (atLeast_subset hmem))
  exact ⟨atLeast_subset hmem, h.sorted.le_of_mem_atLeast hmem, node, h1, h3, h4⟩

/-- **`Search`** returns the first node whose key is not smaller. -/
theorem Inv.search_spec (key : Bytes) : sl.search key = some (atLeast sl.keyOf key xs).head? := by
  simp only [search, h.descend_spec, Option.bind_eq_bind, Option.bind_some, h.forwards_pred_zero]
  cases hx : (atLeast sl.keyOf key xs).head? with
  | none => rfl
  | some x =>
    obtain ⟨-, hle, node, h1, h2, -⟩ := h.node_of_head hx
    have hge : bytesCompare node.key key ≥ 0 := by rw [bytesCompare_ge, h2]; exact hle
    simp only [h1, Option.bind_some, if_pos hge]
    rfl

end Pred

end Csapp.Lsm.SkipList
