import Csapp.Lsm.Search

/-!
# Lsm.Edit — `Insert`, `Delete` and `Update` keep the invariant

Each operation returns (no index is out of range, no `nil` is followed), keeps the invariant, and does
to the pairs of level 0 what the sorted multimap does: `insert_spec`, `delete_spec`, `update_spec`.
-/

namespace Csapp.Lsm.SkipList

open Csapp.Lib

variable {sl : SkipList} {xs : List ℕ} {key value : Bytes} {i : ℕ}

/-! ## `Insert` -/

section Insert

/-- A new node at the end of the store has no links yet; all else is as before. -/
theorem append_node (sl : SkipList) (lv : ℕ) (node : SkipListNode) (hnil : ∀ p ∈ node.forwards, p = none) :
    let sl' : SkipList := { sl with nodes := sl.nodes ++ [node], level := lv }
    let new := sl.nodes.length
    (∀ y, sl'.height y = if y = new then node.forwards.length else sl.height y) ∧
      (∀ y, sl'.keyOf y = if y = new then node.key else sl.keyOf y) ∧
      (∀ y, sl'.valueOf y = if y = new then node.value else sl.valueOf y) ∧
      ∀ j y, sl'.next j y = sl.next j y := by
  intro sl' new
  have hget : ∀ y, sl'.nodes[y]? = if y = new then some node else sl.nodes[y]? := by
    intro y
    rcases lt_trichotomy y new with hy | rfl | hy
    · rw [if_neg hy.ne]; exact List.getElem?_append_left hy
    · simp [sl', new]
    · rw [if_neg hy.ne', List.getElem?_eq_none (by simp [sl']; omega),
        List.getElem?_eq_none (by omega)]
  refine ⟨fun y => ?_, fun y => ?_, fun y => ?_, fun j y => ?_⟩
  · by_cases hy : y = new <;> simp [height, hget, hy]
  · by_cases hy : y = new <;> simp [keyOf, hget, hy]
  · by_cases hy : y = new <;> simp [valueOf, hget, hy]
  · by_cases hy : y = new
    · -- the store has no node `new` yet, and the new node has only `nil` links
      have h0 : sl.nodes[new]? = none := List.getElem?_eq_none le_rfl
      have h1 : (node.forwards[j]?).join = none := by
        cases hj : node.forwards[j]? with
        | none => rfl
        | some p => rw [hnil p (List.mem_of_getElem? hj)]; rfl
      simpa [next, forwards, hget, hy, h0] using h1
    · simp [next, forwards, hget, hy]

/-- `i` levels of the new node are linked. -/
structure LinkInv (sl base : SkipList) (new : ℕ) (u : ℕ → ℕ) (i : ℕ) (t : SkipList) : Prop where
  same : Same base t
  next : ∀ j y, t.next j y =
    if j < i ∧ y = new then sl.next j (u j) else if j < i ∧ y = u j then some new else sl.next j y

theorem linkBody_spec {base t : SkipList} {new : ℕ} {u : ℕ → ℕ} {update : List (Option ℕ)}
    (h : LinkInv sl base new u i t) (hu : update[i]? = some (some (u i))) (hne : u i ≠ new)
    (hnew : i < base.height new) (hui : i < base.height (u i)) :
    ∃ t', linkBody update new i t = some t' ∧ LinkInv sl base new u (i + 1) t' := by
  have hget : getUpdate update i = some (u i) := by simp [getUpdate, hu]
  have hfw : t.forwards (u i) i = some (sl.next i (u i)) := by
    rw [forwards_eq (by rw [h.same.height]; exact hui), h.next]
    simp [hne]
  obtain ⟨t₁, h1, h2, h3⟩ := setForwards_spec
    (show i < t.height new by rw [h.same.height]; exact hnew) (sl.next i (u i))
  obtain ⟨t₂, h4, h5, h6⟩ := setForwards_spec
    (show i < t₁.height (u i) by rw [h2.height, h.same.height]; exact hui) (some new)
  refine ⟨t₂, by simp [linkBody, hget, hfw, h1, h4], (h.same.trans h2).trans h5, fun j y => ?_⟩
  rw [h6, h3, h.next]
  by_cases hj : j = i
  · subst hj
    by_cases hy : y = new
    · subst hy; simp [Ne.symm hne]
    · by_cases hy' : y = u j <;> simp [hy, hy', hne]
  · have : j < i + 1 ↔ j < i := by omega
    simp only [hj, false_and, if_false, this]

/-- The array `update` of `Insert`: the predecessors of all levels that the new node has. -/
theorem Inv.update_filled (h : Inv sl xs) {lv : ℕ} (hlv : lv ≤ MaxLevel) {update : List (Option ℕ)}
    (hu : Recorded sl key xs update 0 sl.level) :
    ∃ update', sl.fillUpdate lv update = some update' ∧ Recorded sl key xs update' 0 lv := by
  unfold fillUpdate
  by_cases hgt : lv > sl.level
  · rw [if_pos hgt]
    refine forRange_inv _ (fun i update => Recorded sl key xs update 0 i) (le_of_lt hgt) hu ?_
    intro i upd h1 h2 hupd
    have hlt : i < upd.length := by rw [hupd.1]; omega
    refine ⟨_, if_pos hlt, by simp [hupd.1], fun j _ hj => ?_⟩
    by_cases hj' : i = j
    · -- above the level the predecessor is `Head`
      subst hj'
      rw [h.pred_of_level_le h1]; simp [hlt]
    · rw [List.getElem?_set_ne hj']; exact hupd.2 j (Nat.zero_le j) (by omega)
  · rw [if_neg hgt]
    exact ⟨update, rfl, hu.1, fun j h1 h2 => hu.2 j h1 (by omega)⟩

theorem Inv.pred_lt (h : Inv sl xs) (hi : i < MaxLevel) : sl.pred key xs i < sl.nodes.length :=
  lt_of_height (h.height_pred hi)

theorem Inv.mem_lt (h : Inv sl xs) {x : ℕ} (hx : x ∈ head :: xs) : x < sl.nodes.length := by
  rcases List.mem_cons.mp hx with rfl | hx
  · exact lt_of_height (i := 0) (by rw [h.height_head]; decide)
  · exact lt_of_height (h.pos x hx)

/-- `t` is `sl` with the new node `new` of height `lv`, linked behind its predecessors. -/
structure Inserted (sl t : SkipList) (key value : Bytes) (xs : List ℕ) (new lv : ℕ) : Prop where
  height_new : t.height new = lv
  keyOf_new : t.keyOf new = key
  valueOf_new : t.valueOf new = value
  height : ∀ x, x ≠ new → t.height x = sl.height x
  keyOf : ∀ x, x ≠ new → t.keyOf x = sl.keyOf x
  valueOf : ∀ x, x ≠ new → t.valueOf x = sl.valueOf x
  level : t.level = max sl.level lv
  maxLevel : t.maxLevel = sl.maxLevel
  next : ∀ j y, t.next j y =
    if j < lv ∧ y = new then sl.next j (sl.pred key xs j)
    else if j < lv ∧ y = sl.pred key xs j then some new else sl.next j y

section Inserted

variable {t : SkipList} {lv new : ℕ} (h : Inv sl xs) (hnew : new = sl.nodes.length)
  (ht : Inserted sl t key value xs new lv)
include h hnew

theorem Inv.ne_new {x : ℕ} (hx : x ∈ head :: xs) : x ≠ new := by
  rw [hnew]; exact (h.mem_lt hx).ne

omit h hnew in
theorem mem_inserted {x : ℕ} :
    x ∈ below sl.keyOf key xs ++ new :: atLeast sl.keyOf key xs ↔ x = new ∨ x ∈ xs := by
  conv_rhs => rw [← below_append_atLeast sl.keyOf key xs]
  simp only [List.mem_append, List.mem_cons]
  tauto

include ht

/-- The nodes of a level, with the new one on its place if it is that high. -/
theorem Inserted.above : t.above i (below sl.keyOf key xs ++ new :: atLeast sl.keyOf key xs) =
    if i < lv then sl.above i (below sl.keyOf key xs) ++ new :: sl.above i (atLeast sl.keyOf key xs)
    else sl.above i xs := by
  have hcongr : ∀ l ⊆ xs, t.above i l = sl.above i l := fun l hl =>
    List.filter_congr fun x hx => by
      rw [ht.height x (h.ne_new hnew (List.mem_cons_of_mem _ (hl hx)))]
  rw [above_append, above_cons, ht.height_new, hcongr _ below_subset, hcongr _ atLeast_subset]
  split_ifs with hi
  · rfl
  · rw [← above_split]

/-- Every level is linked. -/
theorem Inserted.links (hi : i < MaxLevel) : Links (t.next i) head
    (t.above i (below sl.keyOf key xs ++ new :: atLeast sl.keyOf key xs)) := by
  have hl := h.path i hi
  rw [ht.above h hnew]
  by_cases hlv : i < lv
  · rw [if_pos hlv]
    rw [above_split sl key i xs] at hl
    have hsub : ∀ x ∈ head :: (sl.above i (below sl.keyOf key xs) ++ sl.above i (atLeast sl.keyOf key xs)),
        x ∈ head :: xs := by
      rw [← above_split]
      exact List.cons_subset_cons head fun x hx => (mem_above.mp hx).1
    have hne : sl.pred key xs i ≠ new := by rw [hnew]; exact (h.pred_lt hi).ne
    refine hl.insert ?_ ?_ ?_ fun x hx hx' => ?_
    · rw [← above_split]
      exact (List.Sublist.cons_cons head List.filter_sublist).nodup h.nodup
    · exact (ht.next i new).trans (if_pos ⟨hlv, rfl⟩)
    · show t.next i (sl.pred key xs i) = some new
      rw [ht.next, if_neg (fun hc => hne hc.2), if_pos ⟨hlv, rfl⟩]
    · rw [ht.next, if_neg (fun hc => h.ne_new hnew (hsub x hx) hc.2), if_neg (fun hc => hx' hc.2)]
  · rw [if_neg hlv]
    refine hl.congr fun x _ => ?_
    rw [ht.next, if_neg (fun hc => hlv hc.1), if_neg (fun hc => hlv hc.1)]

/-- The new list is sorted. -/
theorem Inserted.sorted :
    SortedBy t.keyOf (below sl.keyOf key xs ++ new :: atLeast sl.keyOf key xs) := by
  have hk : ∀ x ∈ xs, t.keyOf x = sl.keyOf x := fun x hx =>
    ht.keyOf x (h.ne_new hnew (List.mem_cons_of_mem _ hx))
  have hs : SortedBy t.keyOf xs := h.sorted.imp_of_mem fun ha hb hab => by rwa [hk _ ha, hk _ hb]
  obtain ⟨h1, h2⟩ := below_congr (k := key) hk
  rw [← h1, ← h2]
  exact hs.insert ht.keyOf_new

theorem Inserted.inv (h1 : 1 ≤ lv) (h2 : lv ≤ MaxLevel) :
    Inv t (below sl.keyOf key xs ++ new :: atLeast sl.keyOf key xs) := by
  have hH : ∀ x ∈ head :: xs, t.height x = sl.height x := fun x hx => ht.height x (h.ne_new hnew hx)
  refine ⟨ht.maxLevel.trans h.maxLevel_eq, (hH head List.mem_cons_self).trans h.height_head, ?_,
    fun x hx => ?_, fun x hx => ?_, ?_, fun hl => ?_, ht.sorted h hnew, fun i hi => ht.links h hnew hi⟩
  · have hnd : (new :: head :: xs).Nodup := List.nodup_cons.mpr
      ⟨fun hm => h.ne_new hnew hm rfl, h.nodup⟩
    refine (List.Perm.nodup_iff ?_).mp hnd
    conv_lhs => rw [← below_append_atLeast sl.keyOf key xs]
    exact (List.Perm.swap head new _).trans (List.Perm.cons head List.perm_middle.symm)
  · rcases mem_inserted.mp hx with rfl | hx
    · rw [ht.height_new]; exact h1
    · rw [hH x (List.mem_cons_of_mem _ hx)]; exact h.pos x hx
  · rw [ht.level]
    rcases mem_inserted.mp hx with rfl | hx
    · rw [ht.height_new]; exact le_max_right _ _
    · rw [hH x (List.mem_cons_of_mem _ hx)]; exact le_trans (h.le x hx) (le_max_left _ _)
  · rw [ht.level]; exact max_le h.level_le h2
  · -- the highest node is the new one or an old one
    rw [ht.level] at hl ⊢
    rcases le_total sl.level lv with hle | hle
    · rw [max_eq_right hle]
      exact ⟨new, mem_inserted.mpr (Or.inl rfl), ht.height_new⟩
    · rw [max_eq_left hle] at hl ⊢
      obtain ⟨x, hx, hx'⟩ := h.top hl
      exact ⟨x, mem_inserted.mpr (Or.inr hx), (hH x (List.mem_cons_of_mem _ hx)).trans hx'⟩

/-- The new pair comes in front of the pairs with its key. -/
theorem Inserted.pairs : (below sl.keyOf key xs ++ new :: atLeast sl.keyOf key xs).map
    (fun x => (t.keyOf x, t.valueOf x)) =
      insertEntry key value (xs.map fun x => (sl.keyOf x, sl.valueOf x)) := by
  have hcongr : ∀ l ⊆ xs, l.map (fun x => (t.keyOf x, t.valueOf x)) =
      l.map fun x => (sl.keyOf x, sl.valueOf x) := fun l hl =>
    List.map_congr_left fun x hx => by
      have hne := h.ne_new hnew (List.mem_cons_of_mem _ (hl hx))
      rw [ht.keyOf x hne, ht.valueOf x hne]
  rw [List.map_append, List.map_cons, hcongr _ below_subset, hcongr _ atLeast_subset, ht.keyOf_new,
    ht.valueOf_new, insertEntry, below_map, atLeast_map]
  rfl

end Inserted

/-- **`Insert`**. -/
theorem Inv.insert_spec (h : Inv sl xs) (key value : Bytes) {lv : ℕ} (h1 : 1 ≤ lv) (h2 : lv ≤ MaxLevel) :
    ∃ sl' xs', sl.insert key value lv = some sl' ∧ Inv sl' xs' ∧
      sl'.entries = insertEntry key value sl.entries := by
  obtain ⟨upd₁, hd, hu₁⟩ := h.descendUpdate_spec key
  obtain ⟨upd, hf, hu⟩ := h.update_filled h2 hu₁
  set new := sl.nodes.length with hnew
  set base : SkipList :=
    { sl with
      nodes := sl.nodes ++ [⟨key, value, List.replicate lv none⟩]
      level := max sl.level lv } with hbase
  obtain ⟨hht, hkey, hval, hnext⟩ := append_node sl (max sl.level lv)
    ⟨key, value, List.replicate lv none⟩ (fun p hp => List.eq_of_mem_replicate hp)
  rw [← hbase, ← hnew] at hht hkey hval
  rw [← hbase] at hnext
  simp only [List.length_replicate] at hht
  obtain ⟨t, h3, h4⟩ := forRange_inv (s := base) (linkBody upd new)
    (LinkInv sl base new (sl.pred key xs)) (Nat.zero_le lv) ⟨Same.refl base, fun j y => by simp [hnext]⟩
    fun i t _ hi ht => by
      have hne : sl.pred key xs i ≠ new := (h.pred_lt (lt_of_lt_of_le hi h2)).ne
      refine linkBody_spec ht (hu.2 i (Nat.zero_le i) hi) hne ?_ ?_
      · rw [hht, if_pos rfl]; exact hi
      · rw [hht, if_neg hne]; exact h.height_pred (lt_of_lt_of_le hi h2)
  have ht : Inserted sl t key value xs new lv :=
    { height_new := by rw [h4.same.height, hht, if_pos rfl]
      keyOf_new := by rw [h4.same.keyOf, hkey, if_pos rfl]
      valueOf_new := by rw [h4.same.valueOf, hval, if_pos rfl]
      height := fun x hx => by rw [h4.same.height, hht, if_neg hx]
      keyOf := fun x hx => by rw [h4.same.keyOf, hkey, if_neg hx]
      valueOf := fun x hx => by rw [h4.same.valueOf, hval, if_neg hx]
      level := h4.same.level
      maxLevel := h4.same.maxLevel
      next := h4.next }
  have hinv := ht.inv h hnew h1 h2
  refine ⟨t, _, ?_, hinv, ?_⟩
  · have hb : { (if lv > sl.level then { sl with level := lv } else sl) with
        nodes := (if lv > sl.level then { sl with level := lv } else sl).nodes ++
          [⟨key, value, List.replicate lv none⟩] } = base := by
      rw [hbase]
      split_ifs with hgt
      · rw [max_eq_right (le_of_lt hgt)]
      · rw [max_eq_left (not_lt.mp hgt)]
    have hn : (if lv > sl.level then { sl with level := lv } else sl).nodes.length = new := by
      split_ifs <;> rfl
    simp only [insert, hd, Option.bind_eq_bind, Option.bind_some, hf, hb, hn, h3]
  · rw [hinv.entries_eq, h.entries_eq, ht.pairs h hnew]

end Insert

/-! ## `Delete` -/

section Delete

variable {x : ℕ} {rest : List ℕ}

/-- `i` levels of `x` are unlinked. -/
structure UnlinkInv (sl : SkipList) (x : ℕ) (u : ℕ → ℕ) (i : ℕ) (t : SkipList) : Prop where
  same : Same sl t
  next : ∀ j y, t.next j y = if j < i ∧ y = u j then sl.next j x else sl.next j y

/-- The loop unlinks the levels of `x` and stops at the first level above them. -/
theorem unlinkLoop_spec {u : ℕ → ℕ} {update : List (Option ℕ)} (hle : sl.height x ≤ sl.level)
    (hu : ∀ j < sl.level, update[j]? = some (some (u j)) ∧ j < sl.height (u j))
    (hx : ∀ j < sl.level, sl.next j (u j) = some x ↔ j < sl.height x) :
    ∀ n i t, i + n = sl.level → i ≤ sl.height x → UnlinkInv sl x u i t →
      ∃ t', unlinkLoop update x n i t = some t' ∧ UnlinkInv sl x u (sl.height x) t'
  | 0, i, t, hn, hi, ht => by
    obtain rfl : i = sl.height x := by omega
    exact ⟨t, rfl, ht⟩
  | n + 1, i, t, hn, hi, ht => by
    obtain ⟨hu1, hu2⟩ := hu i (by omega)
    have hget : getUpdate update i = some (u i) := by simp [getUpdate, hu1]
    have hnext : ∀ y, t.next i y = sl.next i y := fun y => by rw [ht.next]; simp
    have hfw : t.forwards (u i) i = some (sl.next i (u i)) := by
      rw [forwards_eq (by rw [ht.same.height]; exact hu2), hnext]
    by_cases hlt : i < sl.height x
    · have hfx : t.forwards x i = some (sl.next i x) := by
        rw [forwards_eq (by rw [ht.same.height]; exact hlt), hnext]
      obtain ⟨t₁, h1, h2, h3⟩ := setForwards_spec
        (show i < t.height (u i) by rw [ht.same.height]; exact hu2) (sl.next i x)
      have ht₁ : UnlinkInv sl x u (i + 1) t₁ := by
        refine ⟨ht.same.trans h2, fun j y => ?_⟩
        rw [h3, ht.next]
        by_cases hj : j = i
        · subst hj; by_cases hy : y = u j <;> simp [hy]
        · have : j < i + 1 ↔ j < i := by omega
          simp only [hj, false_and, if_false, this]
      obtain ⟨t', h4, h5⟩ := unlinkLoop_spec hle hu hx n (i + 1) t₁ (by omega) (by omega) ht₁
      refine ⟨t', ?_, h5⟩
      simp [unlinkLoop, hget, hfw, (hx i (by omega)).mpr hlt, hfx, h1, h4]
    · obtain rfl : i = sl.height x := by omega
      have hne : sl.next (sl.height x) (u (sl.height x)) ≠ some x := fun he =>
        hlt ((hx _ (by omega)).mp he)
      exact ⟨t, by simp [unlinkLoop, hget, hfw, hne], ht⟩

/-- On the levels of the first node that is not smaller, its predecessor points to it. -/
theorem Inv.next_pred_iff (h : Inv sl xs) (hR : atLeast sl.keyOf key xs = x :: rest) (hi : i < MaxLevel) :
    sl.next i (sl.pred key xs i) = some x ↔ i < sl.height x := by
  have hnd : (x :: rest).Nodup := by
    rw [← hR]
    exact (List.dropWhile_sublist _).nodup (List.nodup_cons.mp h.nodup).2
  rw [(h.path_pred hi).next_eq, hR, above_cons]
  split_ifs with hlt
  · exact iff_of_true rfl hlt
  · refine iff_of_false (fun he => ?_) hlt
    exact (List.nodup_cons.mp hnd).1 (mem_above.mp (List.mem_of_mem_head? he)).1

/-- Every level without `x` is linked. -/
theorem UnlinkInv.links {t : SkipList} (h : Inv sl xs) (hR : atLeast sl.keyOf key xs = x :: rest)
    (ht : UnlinkInv sl x (sl.pred key xs) (sl.height x) t) (hi : i < MaxLevel) :
    Links (t.next i) head (sl.above i (below sl.keyOf key xs ++ rest)) := by
  have hl := h.path i hi
  rw [above_split sl key i xs, hR, above_cons] at hl
  rw [above_append]
  by_cases hlt : i < sl.height x
  · rw [if_pos hlt] at hl
    refine hl.erase ?_ ?_ fun y _ hy => ?_
    · have hsub : sl.above i (below sl.keyOf key xs) ++ x :: sl.above i rest = sl.above i xs := by
        rw [above_split sl key i xs, hR, above_cons, if_pos hlt]
      rw [hsub]
      exact (List.Sublist.cons_cons head List.filter_sublist).nodup h.nodup
    · exact (ht.next i (sl.pred key xs i)).trans (if_pos ⟨hlt, rfl⟩)
    · rw [ht.next, if_neg (fun hc => hy hc.2)]
  · rw [if_neg hlt] at hl
    refine hl.congr fun y _ => ?_
    rw [ht.next, if_neg (fun hc => hlt hc.1)]

/-- The last loop finds the height of the highest node. -/
theorem shrinkLevel_spec {t : SkipList} {ys : List ℕ} (hhead : t.height head = MaxLevel)
    (hlinks : ∀ i < MaxLevel, Links (t.next i) head (t.above i ys)) :
    ∀ l ≤ MaxLevel, (∀ y ∈ ys, t.height y ≤ l) → ∃ l' ≤ l, shrinkLevel t l = some l' ∧
      (∀ y ∈ ys, t.height y ≤ l') ∧ (1 < l' → ∃ y ∈ ys, t.height y = l')
  | 0, _, hys => ⟨0, le_rfl, rfl, hys, fun h => by omega⟩
  | 1, _, hys => ⟨1, le_rfl, rfl, hys, fun h => by omega⟩
  | l + 2, hl, hys => by
    have hfw : t.forwards head (l + 1) = some (t.above (l + 1) ys).head? := by
      rw [forwards_eq (by rw [hhead]; omega), (hlinks (l + 1) (by omega)).next_eq]
    cases hy : (t.above (l + 1) ys).head? with
    | none =>
      have hnil : t.above (l + 1) ys = [] := List.head?_eq_none_iff.mp hy
      have hys' : ∀ y ∈ ys, t.height y ≤ l + 1 := by
        intro y hmem
        by_contra hc
        have : y ∈ t.above (l + 1) ys := mem_above.mpr ⟨hmem, by omega⟩
        rw [hnil] at this
        exact List.not_mem_nil this
      obtain ⟨l', h1, h2, h3, h4⟩ := shrinkLevel_spec hhead hlinks (l + 1) (by omega) hys'
      exact ⟨l', by omega, by simp [shrinkLevel, hfw, hy, h2], h3, h4⟩
    | some y =>
      obtain ⟨hmem, hgt⟩ := mem_above.mp (List.mem_of_mem_head? hy)
      refine ⟨l + 2, le_rfl, by simp [shrinkLevel, hfw, hy], hys, fun _ => ⟨y, hmem, ?_⟩⟩
      have := hys y hmem
      omega

/-- What `Delete` does to the pairs: the result and what is left. -/
def deleted (key : Bytes) (es : List (Bytes × Bytes)) : Except GoError Unit × List (Bytes × Bytes) :=
  match deleteEntry key es with
  | none => (.error ⟨"Key not found: %s", [key]⟩, es)
  | some es' => (.ok (), es')

/-- The pairs split as the nodes do. -/
theorem atLeast_pairs (sl : SkipList) (key : Bytes) (xs : List ℕ) :
    atLeast Prod.fst key (xs.map fun x => (sl.keyOf x, sl.valueOf x)) =
      (atLeast sl.keyOf key xs).map fun x => (sl.keyOf x, sl.valueOf x) := atLeast_map _ _ _ _

theorem below_pairs (sl : SkipList) (key : Bytes) (xs : List ℕ) :
    below Prod.fst key (xs.map fun x => (sl.keyOf x, sl.valueOf x)) =
      (below sl.keyOf key xs).map fun x => (sl.keyOf x, sl.valueOf x) := below_map _ _ _ _

/-- The node is found: it is unlinked from all its levels. -/
theorem Inv.unlink_spec (h : Inv sl xs) (hR : atLeast sl.keyOf key xs = x :: rest)
    {update : List (Option ℕ)} (hu : Recorded sl key xs update 0 sl.level) :
    ∃ t l', unlinkLoop update x sl.level 0 sl = some t ∧ shrinkLevel t t.level = some l' ∧
      Inv { t with level := l' } (below sl.keyOf key xs ++ rest) ∧ Same sl t := by
  have hsplit : below sl.keyOf key xs ++ x :: rest = xs := by
    rw [← hR]; exact below_append_atLeast _ _ _
  have hsub : (below sl.keyOf key xs ++ rest).Sublist xs := by
    conv_rhs => rw [← hsplit]
    exact (List.Sublist.refl _).append (List.sublist_cons_self x rest)
  have hmem : x ∈ xs := by rw [← hsplit]; simp
  have hlv := h.level_le
  obtain ⟨t, h1, h2⟩ := unlinkLoop_spec (u := sl.pred key xs) (h.le x hmem)
    (fun j hj => ⟨hu.2 j (Nat.zero_le j) hj, h.height_pred (by omega)⟩)
    (fun j hj => h.next_pred_iff hR (by omega)) sl.level 0 sl (Nat.zero_add _) (Nat.zero_le _)
    ⟨Same.refl sl, fun j y => by simp⟩
  have habove : ∀ i l, t.above i l = sl.above i l := fun i l =>
    List.filter_congr fun y _ => by rw [h2.same.height]
  have hlinks : ∀ i < MaxLevel, Links (t.next i) head (t.above i (below sl.keyOf key xs ++ rest)) :=
    fun i hi => by rw [habove]; exact h2.links h hR hi
  have hhead : t.height head = MaxLevel := (h2.same.height head).trans h.height_head
  obtain ⟨l', h3, h4, h5, h6⟩ := shrinkLevel_spec hhead hlinks sl.level hlv fun y hy => by
    rw [h2.same.height]; exact h.le y (hsub.subset hy)
  refine ⟨t, l', h1, by rw [h2.same.level]; exact h4, ?_, h2.same⟩
  refine ⟨h2.same.maxLevel.trans h.maxLevel_eq, hhead, (hsub.cons_cons head).nodup h.nodup,
    fun y hy => ?_, h5, le_trans h3 hlv, h6, ?_, hlinks⟩
  · show 0 < t.height y
    rw [h2.same.height]; exact h.pos y (hsub.subset hy)
  · have hk : t.keyOf = sl.keyOf := funext h2.same.keyOf
    show SortedBy t.keyOf _
    rw [hk]; exact h.sorted.sublist hsub

/-- **`Delete`**. -/
theorem Inv.delete_spec (h : Inv sl xs) (key : Bytes) : ∃ r sl' xs', sl.delete key = some (r, sl') ∧ Inv sl' xs' ∧
    (r, sl'.entries) = deleted key sl.entries := by
  obtain ⟨update, hd, hu⟩ := h.descendUpdate_spec key
  cases hR : atLeast sl.keyOf key xs with
  | nil =>
    refine ⟨.error ⟨"Key not found: %s", [key]⟩, sl, xs, ?_, h, ?_⟩
    · simp [delete, hd, h.forwards_pred_zero, hR]
    · rw [deleted, deleteEntry, h.entries_eq, atLeast_pairs, hR]
      rfl
  | cons x rest =>
    obtain ⟨-, -, node, hn, hk, -⟩ := h.node_of_head
      (show (atLeast sl.keyOf key xs).head? = some x by rw [hR]; rfl)
    by_cases hkey : sl.keyOf x = key
    · obtain ⟨t, l', h1, h2, h3, h4⟩ := h.unlink_spec hR hu
      refine ⟨.ok (), _, _, ?_, h3, ?_⟩
      · have hc : bytesCompare node.key key = 0 := by rw [bytesCompare_eq, hk, hkey]
        simp [delete, hd, h.forwards_pred_zero, hR, hn, hc, h1, h2]
      · rw [h3.entries_eq, deleted, deleteEntry, h.entries_eq, atLeast_pairs, below_pairs, hR]
        have hK : ∀ y, SkipList.keyOf { t with level := l' } y = sl.keyOf y := h4.keyOf
        have hV : ∀ y, SkipList.valueOf { t with level := l' } y = sl.valueOf y := h4.valueOf
        simp only [List.map_cons, hkey, if_true, List.map_append, hK, hV]
    · refine ⟨.error ⟨"Key not found: %s", [key]⟩, sl, xs, ?_, h, ?_⟩
      · have hc : ¬ bytesCompare node.key key = 0 := by rw [bytesCompare_eq, hk]; exact hkey
        simp [delete, hd, h.forwards_pred_zero, hR, hn, hc]
      · rw [deleted, deleteEntry, h.entries_eq, atLeast_pairs, hR]
        simp only [List.map_cons, if_neg hkey]

end Delete

/-! ## `Update` -/

section Update

/-- `current.Value = value` changes one value. -/
theorem setValue_spec {x : ℕ} (hx : 0 < sl.height x) (value : Bytes) :
    ∃ sl', sl.setValue x value = some sl' ∧ (∀ y, sl'.height y = sl.height y) ∧
      (∀ y, sl'.keyOf y = sl.keyOf y) ∧ (∀ j y, sl'.next j y = sl.next j y) ∧
      (∀ y, sl'.valueOf y = if y = x then value else sl.valueOf y) ∧ sl'.level = sl.level ∧
      sl'.maxLevel = sl.maxLevel := by
  obtain ⟨node, h1, -⟩ := node_of_height hx
  have hlt := lt_of_height hx
  set sl' : SkipList := { sl with nodes := sl.nodes.set x { node with value := value } } with hsl'
  have hget : ∀ y, sl'.nodes[y]? =
      if y = x then some { node with value := value } else sl.nodes[y]? := by
    intro y
    by_cases hy : y = x
    · subst hy; simp [hsl', hlt]
    · simp [hsl', List.getElem?_set_ne (Ne.symm hy), hy]
  refine ⟨sl', by simp [setValue, h1, hsl'], fun y => ?_, fun y => ?_, fun j y => ?_, fun y => ?_, rfl, rfl⟩
  · by_cases hy : y = x <;> simp [height, hget, hy, h1]
  · by_cases hy : y = x <;> simp [keyOf, hget, hy, h1]
  · by_cases hy : y = x <;> simp [next, forwards, hget, hy, h1]
  · by_cases hy : y = x <;> simp [valueOf, hget, hy]

/-- The invariant does not look at values. -/
theorem Inv.congr {sl' : SkipList} (h : Inv sl xs) (hH : ∀ y, sl'.height y = sl.height y)
    (hK : ∀ y, sl'.keyOf y = sl.keyOf y) (hN : ∀ j y, sl'.next j y = sl.next j y)
    (hL : sl'.level = sl.level) (hM : sl'.maxLevel = sl.maxLevel) : Inv sl' xs := by
  have hH' : sl'.height = sl.height := funext hH
  have hK' : sl'.keyOf = sl.keyOf := funext hK
  have hN' : sl'.next = sl.next := funext fun j => funext (hN j)
  refine ⟨hM.trans h.maxLevel_eq, (hH head).trans h.height_head, h.nodup, ?_, ?_, ?_, ?_, ?_, fun i hi => ?_⟩
  · rw [hH']; exact h.pos
  · rw [hH', hL]; exact h.le
  · rw [hL]; exact h.level_le
  · rw [hH', hL]; exact h.top
  · rw [hK']; exact h.sorted
  · rw [hN', above, hH']; exact h.path i hi

/-- The key is found: the first pair with it gets the value. -/
theorem Inv.setValue_found (h : Inv sl xs) (value : Bytes) {x : ℕ} {rest : List ℕ}
    (hR : atLeast sl.keyOf key xs = x :: rest) (hkey : sl.keyOf x = key) :
    ∃ sl', sl.setValue x value = some sl' ∧ Inv sl' xs ∧
      sl'.entries = updateEntry key value sl.entries := by
  have hsplit : below sl.keyOf key xs ++ x :: rest = xs := by
    rw [← hR]; exact below_append_atLeast _ _ _
  have hnd : (below sl.keyOf key xs ++ x :: rest).Nodup := by
    rw [hsplit]; exact (List.nodup_cons.mp h.nodup).2
  have hmem : x ∈ xs := by rw [← hsplit]; simp
  obtain ⟨sl', h1, h2, h3, h4, h5, h6, h7⟩ := setValue_spec (h.pos x hmem) value
  have hinv := h.congr h2 h3 h4 h6 h7
  refine ⟨sl', h1, hinv, ?_⟩
  have hx : ∀ l : List ℕ, x ∉ l → l.map (fun y => (sl'.keyOf y, sl'.valueOf y)) =
      l.map fun y => (sl.keyOf y, sl.valueOf y) := fun l hl =>
    List.map_congr_left fun y hy => by
      have hne : y ≠ x := fun e => hl (by rwa [← e])
      rw [h3, h5, if_neg hne]
  obtain ⟨hn1, hn2⟩ := List.nodup_cons.mp (List.perm_middle.nodup_iff.mp hnd)
  obtain ⟨hn3, hn4⟩ := not_or.mp (fun hc => hn1 (List.mem_append.mpr hc))
  rw [hinv.entries_eq, h.entries_eq, updateEntry, atLeast_pairs, below_pairs, hR]
  conv_lhs => rw [← hsplit]
  rw [List.map_append, List.map_cons, List.map_cons, hx _ hn3, hx _ hn4, h3, h5, if_pos rfl]
  simp only [hkey, if_true]

/-- **`Update`**. -/
theorem Inv.update_spec (h : Inv sl xs) (key value : Bytes) {lv : ℕ} (h1 : 1 ≤ lv) (h2 : lv ≤ MaxLevel) :
    ∃ sl' xs', sl.update key value lv = some sl' ∧ Inv sl' xs' ∧
      sl'.entries = updateEntry key value sl.entries := by
  obtain ⟨sl₁, xs₁, h3, h4, h5⟩ := h.insert_spec key value h1 h2
  cases hR : atLeast sl.keyOf key xs with
  | nil =>
    refine ⟨sl₁, xs₁, ?_, h4, ?_⟩
    · simp [update, h.descend_spec, h.forwards_pred_zero, hR, h3]
    · rw [h5, updateEntry, h.entries_eq, atLeast_pairs, hR]
      rfl
  | cons x rest =>
    obtain ⟨-, -, node, hn, hk, -⟩ := h.node_of_head
      (show (atLeast sl.keyOf key xs).head? = some x by rw [hR]; rfl)
    by_cases hkey : sl.keyOf x = key
    · have hc : bytesCompare node.key key = 0 := by rw [bytesCompare_eq, hk, hkey]
      obtain ⟨sl', h6, h7, h8⟩ := h.setValue_found value hR hkey
      refine ⟨sl', xs, ?_, h7, h8⟩
      simp [update, h.descend_spec, h.forwards_pred_zero, hR, hn, hc, h6]
    · have hc : ¬ bytesCompare node.key key = 0 := by rw [bytesCompare_eq, hk]; exact hkey
      refine ⟨sl₁, xs₁, ?_, h4, ?_⟩
      · simp [update, h.descend_spec, h.forwards_pred_zero, hR, hn, hc, h3]
      · rw [h5, updateEntry, h.entries_eq, atLeast_pairs, hR]
        simp only [List.map_cons, if_neg hkey]

end Update

end Csapp.Lsm.SkipList
