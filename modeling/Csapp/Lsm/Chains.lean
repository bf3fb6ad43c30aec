import Csapp.Lsm.SkipList
import Csapp.Lib.Links
import Csapp.Lib.SortedList
import Mathlib.Data.List.Lex
import Mathlib.Data.List.Perm.Subperm
import Mathlib.Order.Fin.Basic

/-!
# Lsm.Chains — the chains of a skip list and their invariant

`next i x`, `height x`, `keyOf x` and `valueOf x` read a node; inside the height of a node the source's
accesses are these functions (`forwards_eq`, `setForwards_spec`).  `Inv sl xs` says that `xs` is the
chain of level 0, sorted by key, and that the chain of level `i` consists of the nodes of `xs` that are
higher than `i`.
-/

namespace Csapp.Lsm

open Csapp.Lib

/-! ## Byte strings -/

theorem bytesCompare_lt : ∀ {a b : Bytes}, bytesCompare a b < 0 ↔ a < b
  | [], [] => by simp [bytesCompare]
  | [], _ :: _ => by simp [bytesCompare]
  | _ :: _, [] => by simp [bytesCompare]
  | x :: a, y :: b => by
    rw [bytesCompare, List.cons_lt_cons_iff]
    rcases lt_trichotomy x y with h | h | h
    · simp [h]
    · subst h
      simp [bytesCompare_lt]
    · simp [h, h.asymm, h.ne']

theorem bytesCompare_eq : ∀ {a b : Bytes}, bytesCompare a b = 0 ↔ a = b
  | [], [] => by simp [bytesCompare]
  | [], _ :: _ => by simp [bytesCompare]
  | _ :: _, [] => by simp [bytesCompare]
  | x :: a, y :: b => by
    rw [bytesCompare, List.cons.injEq]
    rcases lt_trichotomy x y with h | h | h
    · simp [h, h.ne]
    · subst h
      simp [bytesCompare_eq]
    · simp [h, h.asymm, h.ne']

theorem bytesCompare_ge {a b : Bytes} : bytesCompare a b ≥ 0 ↔ b ≤ a := by
  rw [ge_iff_le, ← not_lt, bytesCompare_lt, not_lt]

theorem bytesCompare_gt {a b : Bytes} : bytesCompare a b > 0 ↔ b < a := by
  rw [gt_iff_lt, lt_iff_le_and_ne, lt_iff_le_and_ne, ← ge_iff_le, bytesCompare_ge, ne_comm, ne_eq, bytesCompare_eq,
    ne_comm]

/-! ## Reading and writing nodes -/

namespace SkipList

variable {sl sl' : SkipList} {x y i : ℕ} {p : Option ℕ}

def height (sl : SkipList) (x : ℕ) : ℕ := (sl.nodes[x]?.map (·.forwards.length)).getD 0

def keyOf (sl : SkipList) (x : ℕ) : Bytes := (sl.nodes[x]?.map (·.key)).getD []

def valueOf (sl : SkipList) (x : ℕ) : Bytes := (sl.nodes[x]?.map (·.value)).getD []

/-- The successor of `x` on level `i`. -/
def next (sl : SkipList) (i x : ℕ) : Option ℕ := (sl.forwards x i).join

/-- A node with some level exists. -/
theorem node_of_height (h : i < sl.height x) :
    ∃ node, sl.nodes[x]? = some node ∧ node.forwards.length = sl.height x ∧
      node.key = sl.keyOf x ∧ node.value = sl.valueOf x := by
  unfold height keyOf valueOf at *
  cases hx : sl.nodes[x]? with
  | none => rw [hx] at h; simp at h
  | some node => exact ⟨node, rfl, rfl, rfl, rfl⟩

theorem lt_of_height (h : i < sl.height x) : x < sl.nodes.length := by
  obtain ⟨node, h1, -⟩ := node_of_height h
  exact (List.getElem?_eq_some_iff.mp h1).1

/-- Reading a level inside the height does not panic. -/
theorem forwards_eq (h : i < sl.height x) : sl.forwards x i = some (sl.next i x) := by
  obtain ⟨node, h1, h2, -⟩ := node_of_height h
  have hi : i < node.forwards.length := by omega
  simp [next, forwards, h1, List.getElem?_eq_getElem hi]

/-- The same nodes with the same data; links may differ. -/
structure Same (sl sl' : SkipList) : Prop where
  height : ∀ x, sl'.height x = sl.height x
  keyOf : ∀ x, sl'.keyOf x = sl.keyOf x
  valueOf : ∀ x, sl'.valueOf x = sl.valueOf x
  length : sl'.nodes.length = sl.nodes.length
  level : sl'.level = sl.level
  maxLevel : sl'.maxLevel = sl.maxLevel

theorem Same.refl (sl : SkipList) : Same sl sl := ⟨fun _ => rfl, fun _ => rfl, fun _ => rfl, rfl, rfl, rfl⟩

theorem Same.trans {s t u : SkipList} (h : Same s t) (h' : Same t u) : Same s u where
  height x := (h'.height x).trans (h.height x)
  keyOf x := (h'.keyOf x).trans (h.keyOf x)
  valueOf x := (h'.valueOf x).trans (h.valueOf x)
  length := h'.length.trans h.length
  level := h'.level.trans h.level
  maxLevel := h'.maxLevel.trans h.maxLevel

/-- Writing a level inside the height changes one link. -/
theorem setForwards_spec (h : i < sl.height x) (p : Option ℕ) :
    ∃ sl', sl.setForwards x i p = some sl' ∧ Same sl sl' ∧
      ∀ j y, sl'.next j y = if j = i ∧ y = x then p else sl.next j y := by
  obtain ⟨node, h1, h2, -⟩ := node_of_height h
  have hx := lt_of_height h
  have hi : i < node.forwards.length := by omega
  set sl' : SkipList :=
    { sl with nodes := sl.nodes.set x { node with forwards := node.forwards.set i p } } with hsl'
  have hget : ∀ y, sl'.nodes[y]? =
      if y = x then some { node with forwards := node.forwards.set i p } else sl.nodes[y]? := by
    intro y
    by_cases hy : y = x
    · subst hy; simp [hsl', hx]
    · simp [hsl', List.getElem?_set_ne (Ne.symm hy), hy]
  refine ⟨sl', by simp [setForwards, h1, hi, hsl'],
    ⟨fun y => ?_, fun y => ?_, fun y => ?_, by simp [hsl'], rfl, rfl⟩, fun j y => ?_⟩
  · by_cases hy : y = x <;> simp [height, hget, hy, h1]
  · by_cases hy : y = x <;> simp [keyOf, hget, hy, h1]
  · by_cases hy : y = x <;> simp [valueOf, hget, hy, h1]
  · by_cases hy : y = x
    · by_cases hj : j = i
      · simp [next, forwards, hget, hy, hj, hi]
      · simp [next, forwards, hget, hy, hj, h1, List.getElem?_set_ne (Ne.symm hj)]
    · simp [next, forwards, hget, hy]

/-- The nodes of `xs` that are higher than `i`. -/
def above (sl : SkipList) (i : ℕ) (xs : List ℕ) : List ℕ := xs.filter fun x => decide (i < sl.height x)

/-- The chain of level `i`, as reading it from `Head` yields it. -/
def chain (sl : SkipList) (i : ℕ) : List ℕ := walk (sl.next i) sl.nodes.length head

/-- The pairs of the chain of level 0. -/
def entries (sl : SkipList) : List (Bytes × Bytes) :=
  (sl.chain 0).map fun x => (sl.keyOf x, sl.valueOf x)

/-- **Invariant.**  `xs` is the chain of level 0; links above the level are `nil`. -/
structure Inv (sl : SkipList) (xs : List ℕ) : Prop where
  maxLevel_eq : sl.maxLevel = MaxLevel
  height_head : sl.height head = MaxLevel
  nodup : (head :: xs).Nodup
  pos : ∀ x ∈ xs, 0 < sl.height x
  le : ∀ x ∈ xs, sl.height x ≤ sl.level
  level_le : sl.level ≤ MaxLevel
  top : 1 < sl.level → ∃ x ∈ xs, sl.height x = sl.level
  sorted : SortedBy sl.keyOf xs
  path : ∀ i < MaxLevel, Links (sl.next i) head (sl.above i xs)

section Inv

variable {xs : List ℕ}

theorem mem_above : x ∈ sl.above i xs ↔ x ∈ xs ∧ i < sl.height x := by
  simp [above]

theorem above_append (sl : SkipList) (i : ℕ) (l r : List ℕ) :
    sl.above i (l ++ r) = sl.above i l ++ sl.above i r := List.filter_append l r

theorem above_cons (sl : SkipList) (i x : ℕ) (l : List ℕ) :
    sl.above i (x :: l) = if i < sl.height x then x :: sl.above i l else sl.above i l := by
  simp only [above, List.filter_cons, decide_eq_true_eq]

theorem Inv.above_zero (h : Inv sl xs) : sl.above 0 xs = xs :=
  List.filter_eq_self.mpr fun x hx => decide_eq_true (h.pos x hx)

/-- No node is higher than the level. -/
theorem Inv.above_of_le (h : Inv sl xs) (hi : sl.level ≤ i) {l : List ℕ} (hl : l ⊆ xs) :
    sl.above i l = [] :=
  List.filter_eq_nil_iff.mpr fun x hx => by
    have := h.le x (hl hx)
    simp only [decide_eq_true_eq, not_lt]
    omega

theorem Inv.length_le (h : Inv sl xs) : xs.length < sl.nodes.length := by
  have hsub : head :: xs ⊆ List.range sl.nodes.length := by
    intro x hx
    rw [List.mem_range]
    rcases List.mem_cons.mp hx with rfl | hx
    · exact lt_of_height (i := 0) (by rw [h.height_head]; decide)
    · exact lt_of_height (h.pos x hx)
  have := (List.subperm_of_subset h.nodup hsub).length_le
  rwa [List.length_range, List.length_cons] at this

/-- The chain that is read is the chain of the invariant. -/
theorem Inv.chain_eq (h : Inv sl xs) (hi : i < MaxLevel) : sl.chain i = sl.above i xs := by
  refine Links.walk_eq (h.path i hi) ?_
  have := h.length_le
  have : (sl.above i xs).length ≤ xs.length := List.length_filter_le _ _
  omega

theorem Inv.entries_eq (h : Inv sl xs) :
    sl.entries = xs.map fun x => (sl.keyOf x, sl.valueOf x) := by
  rw [entries, h.chain_eq (by decide), h.above_zero]

end Inv

end SkipList

end Csapp.Lsm
