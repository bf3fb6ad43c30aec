import Mathlib.Order.Lattice
import Mathlib.Data.List.Basic
import Mathlib.Logic.Function.Basic

/-!
# Lib.GroupTree — binary search trees of groups

A node of the tree is a group of elements with one key: its head, and the rest behind it.  A new element goes in
front of its group, or becomes a leaf.  The keys of the heads stay in order (`Sorted.insert`), the group of a key
is what was inserted under it, newest first (`lookup_insert`), and no element is lost or doubled
(`nodes_insert`).
-/

namespace Csapp.Lib

inductive Side
  | left
  | right
  deriving DecidableEq

inductive GroupTree (α : Type*)
  | nil
  | node (a : α) (rest : List α) (sub : Side → GroupTree α)

namespace GroupTree

variable {α κ : Type*}

/-- The heads, in order. -/
def heads : GroupTree α → List α
  | nil => []
  | node a _ sub => (sub .left).heads ++ a :: (sub .right).heads

/-- The elements behind the heads. -/
def tails : GroupTree α → List α
  | nil => []
  | node _ rest sub => rest ++ ((sub .left).tails ++ (sub .right).tails)

def nodes : GroupTree α → List α
  | nil => []
  | node a rest sub => a :: (rest ++ ((sub .left).nodes ++ (sub .right).nodes))

section Members

variable {a b : α} {rest : List α} {sub : Side → GroupTree α} {t : GroupTree α}

theorem mem_heads_node : b ∈ (node a rest sub).heads ↔ b = a ∨ ∃ s, b ∈ (sub s).heads := by
  rw [heads, List.mem_append, List.mem_cons]
  constructor
  · rintro (h | rfl | h)
    · exact Or.inr ⟨.left, h⟩
    · exact Or.inl rfl
    · exact Or.inr ⟨.right, h⟩
  · rintro (rfl | ⟨s, h⟩)
    · exact Or.inr (Or.inl rfl)
    · cases s with
      | left => exact Or.inl h
      | right => exact Or.inr (Or.inr h)

theorem mem_tails_node : b ∈ (node a rest sub).tails ↔ b ∈ rest ∨ ∃ s, b ∈ (sub s).tails := by
  rw [tails, List.mem_append, List.mem_append]
  constructor
  · rintro (h | h | h)
    · exact Or.inl h
    · exact Or.inr ⟨.left, h⟩
    · exact Or.inr ⟨.right, h⟩
  · rintro (h | ⟨s, h⟩)
    · exact Or.inl h
    · cases s with
      | left => exact Or.inr (Or.inl h)
      | right => exact Or.inr (Or.inr h)

theorem mem_nodes_node : b ∈ (node a rest sub).nodes ↔ b = a ∨ b ∈ rest ∨ ∃ s, b ∈ (sub s).nodes := by
  rw [nodes, List.mem_cons, List.mem_append, List.mem_append]
  refine or_congr_right (or_congr_right ⟨?_, ?_⟩)
  · rintro (h | h)
    · exact ⟨.left, h⟩
    · exact ⟨.right, h⟩
  · rintro ⟨s, h⟩
    cases s with
    | left => exact Or.inl h
    | right => exact Or.inr h

theorem head_mem_heads : a ∈ (node a rest sub).heads := mem_heads_node.mpr (Or.inl rfl)

theorem mem_heads_sub {s : Side} (h : b ∈ (sub s).heads) : b ∈ (node a rest sub).heads :=
  mem_heads_node.mpr (Or.inr ⟨s, h⟩)

theorem mem_tails_rest (h : b ∈ rest) : b ∈ (node a rest sub).tails := mem_tails_node.mpr (Or.inl h)

theorem mem_tails_sub {s : Side} (h : b ∈ (sub s).tails) : b ∈ (node a rest sub).tails :=
  mem_tails_node.mpr (Or.inr ⟨s, h⟩)

theorem head_mem_nodes : a ∈ (node a rest sub).nodes := mem_nodes_node.mpr (Or.inl rfl)

theorem mem_nodes_group (h : b ∈ a :: rest) : b ∈ (node a rest sub).nodes :=
  mem_nodes_node.mpr ((List.mem_cons.mp h).imp_right Or.inl)

theorem mem_nodes_sub {s : Side} (h : b ∈ (sub s).nodes) : b ∈ (node a rest sub).nodes :=
  mem_nodes_node.mpr (Or.inr (Or.inr ⟨s, h⟩))

theorem mem_nodes_of_mem_heads (h : b ∈ t.heads) : b ∈ t.nodes := by
  induction t with
  | nil => exact h
  | node a rest sub ih =>
    rw [mem_nodes_node]
    rcases mem_heads_node.mp h with rfl | ⟨s, h⟩
    · exact Or.inl rfl
    · exact Or.inr (Or.inr ⟨s, ih s h⟩)

theorem mem_nodes_of_mem_tails (h : b ∈ t.tails) : b ∈ t.nodes := by
  induction t with
  | nil => exact h
  | node a rest sub ih =>
    rw [mem_nodes_node]
    rcases mem_tails_node.mp h with h | ⟨s, h⟩
    · exact Or.inr (Or.inl h)
    · exact Or.inr (Or.inr ⟨s, ih s h⟩)

/-- Nothing is twice in a node: not in its group, nor there and under it, nor under it on both sides. -/
structure Apart (a : α) (rest : List α) (sub : Side → GroupTree α) : Prop where
  head : a ∉ rest
  head_sub : ∀ s, a ∉ (sub s).nodes
  rest_sub : ∀ s, ∀ b ∈ rest, b ∉ (sub s).nodes
  nodup : ∀ s, (sub s).nodes.Nodup
  sides : ∀ s s', s ≠ s' → ∀ b ∈ (sub s).nodes, b ∉ (sub s').nodes

theorem apart_of_nodup (h : (node a rest sub).nodes.Nodup) : Apart a rest sub := by
  rw [nodes, List.nodup_cons, List.nodup_append, List.nodup_append] at h
  obtain ⟨ha, -, ⟨hl, hr, hlr⟩, hsub⟩ := h
  rw [List.mem_append, List.mem_append] at ha
  have hdisj : ∀ s s', s ≠ s' → ∀ b ∈ (sub s).nodes, b ∉ (sub s').nodes := by
    intro s s' hs b hb hb'
    match s, s', hs with
    | .left, .right, _ => exact hlr b hb b hb' rfl
    | .right, .left, _ => exact hlr b hb' b hb rfl
    | .left, .left, hs => exact hs rfl
    | .right, .right, hs => exact hs rfl
  have hmem : ∀ s, ∀ b ∈ (sub s).nodes, b ∈ (sub .left).nodes ++ (sub .right).nodes := by
    intro s b hb
    cases s with
    | left => exact List.mem_append_left _ hb
    | right => exact List.mem_append_right _ hb
  refine ⟨fun h => ha (Or.inl h), fun s h => ha (Or.inr ?_),
    fun s b hb h => hsub b hb b (hmem s b h) rfl, fun s => ?_, hdisj⟩
  · exact List.mem_append.mp (hmem s a h)
  · cases s with
    | left => exact hl
    | right => exact hr

/-- A head is behind no head. -/
theorem not_mem_tails_of_mem_heads (h : t.nodes.Nodup) (hb : b ∈ t.heads) : b ∉ t.tails := by
  induction t with
  | nil => exact fun _ => List.not_mem_nil hb
  | node a rest sub ih =>
    have hap := apart_of_nodup h
    intro hb'
    rcases mem_heads_node.mp hb with rfl | ⟨s, hs⟩
    · rcases mem_tails_node.mp hb' with h' | ⟨s, h'⟩
      · exact hap.head h'
      · exact hap.head_sub s (mem_nodes_of_mem_tails h')
    · rcases mem_tails_node.mp hb' with h' | ⟨s', h'⟩
      · exact hap.rest_sub s b h' (mem_nodes_of_mem_heads hs)
      · by_cases he : s = s'
        · subst he
          exact ih s (hap.nodup s) hs h'
        · exact hap.sides s s' he b (mem_nodes_of_mem_heads hs) (mem_nodes_of_mem_tails h')

end Members

/-! ## Keys -/

section Keys

variable [LinearOrder κ] (key : α → κ)

/-- Where a search for `c` goes on at a node with the key `d`; nowhere, when they are equal. -/
def side (c d : κ) : Option Side := if c < d then some .left else if d < c then some .right else none

def Sorted (t : GroupTree α) : Prop := t.heads.Pairwise fun a b => key a < key b

/-- The group of the key `c`. -/
def lookup (c : κ) : GroupTree α → List α
  | nil => []
  | node a rest sub =>
    match side c (key a) with
    | none => a :: rest
    | some s => (sub s).lookup c

def insert (x : α) : GroupTree α → GroupTree α
  | nil => node x [] fun _ => nil
  | node a rest sub =>
    match side (key x) (key a) with
    | none => node x (a :: rest) sub
    | some s => node a rest (Function.update sub s ((sub s).insert x))

variable {key} {key' : α → κ} {x a b : α} {c : κ} {rest : List α} {sub : Side → GroupTree α}
  {t : GroupTree α} {s : Side}

theorem side_eq_left {c d : κ} : side c d = some .left ↔ c < d := by
  unfold side
  split_ifs with h h'
  · exact iff_of_true rfl h
  · exact iff_of_false (fun h => nomatch h) h
  · exact iff_of_false (fun h => nomatch h) h

theorem side_eq_right {c d : κ} : side c d = some .right ↔ d < c := by
  unfold side
  split_ifs with h h'
  · exact iff_of_false (fun h => nomatch h) h.not_gt
  · exact iff_of_true rfl h'
  · exact iff_of_false (fun h => nomatch h) h'

theorem side_eq_none {c d : κ} : side c d = none ↔ c = d := by
  unfold side
  split_ifs with h h'
  · exact iff_of_false (fun h => nomatch h) h.ne
  · exact iff_of_false (fun h => nomatch h) h'.ne'
  · exact iff_of_true rfl (le_antisymm (not_lt.mp h') (not_lt.mp h))

theorem insert_of_eq (h : key x = key a) :
    (node a rest sub).insert key x = node x (a :: rest) sub := by
  rw [insert, side_eq_none.mpr h]

theorem insert_of_side (rest : List α) (sub : Side → GroupTree α) (h : side (key x) (key a) = some s) :
    (node a rest sub).insert key x = node a rest (Function.update sub s ((sub s).insert key x)) := by
  rw [insert, h]

theorem mem_heads_insert (h : b ∈ (t.insert key x).heads) : b = x ∨ b ∈ t.heads := by
  induction t with
  | nil => exact Or.inl (List.mem_singleton.mp h)
  | node a rest sub ih =>
    rw [mem_heads_node]
    cases hs : side (key x) (key a) with
    | none =>
      rw [insert_of_eq (side_eq_none.mp hs)] at h
      exact (mem_heads_node.mp h).imp_right Or.inr
    | some s =>
      rw [insert_of_side rest sub hs, mem_heads_node] at h
      rcases h with h | ⟨s', h⟩
      · exact Or.inr (Or.inl h)
      · by_cases he : s' = s
        · subst he
          rw [Function.update_self] at h
          exact (ih s' h).imp_right fun h => Or.inr ⟨s', h⟩
        · rw [Function.update_of_ne he] at h
          exact Or.inr (Or.inr ⟨s', h⟩)

theorem nodes_insert (key : α → κ) (x : α) (t : GroupTree α) : (t.insert key x).nodes.Perm (x :: t.nodes) := by
  induction t with
  | nil => exact List.Perm.refl _
  | node a rest sub ih =>
    cases hs : side (key x) (key a) with
    | none =>
      rw [insert_of_eq (side_eq_none.mp hs)]
      exact List.Perm.refl _
    | some s =>
      have hsub : (rest ++ ((Function.update sub s ((sub s).insert key x) .left).nodes ++
          (Function.update sub s ((sub s).insert key x) .right).nodes)).Perm
          (x :: (rest ++ ((sub .left).nodes ++ (sub .right).nodes))) := by
        cases s with
        | left =>
          rw [Function.update_self, Function.update_of_ne (by decide)]
          exact (((ih .left).append_right _).append_left rest).trans List.perm_middle
        | right =>
          rw [Function.update_self, Function.update_of_ne (by decide)]
          exact ((((ih .right).append_left _).trans List.perm_middle).append_left rest).trans List.perm_middle
      rw [insert_of_side rest sub hs, nodes, nodes]
      exact (hsub.cons a).trans (List.Perm.swap x a _)

/-- In a sorted tree every head is found on its side. -/
theorem sorted_node : Sorted key (node a rest sub) ↔
    ∀ s, Sorted key (sub s) ∧ ∀ b ∈ (sub s).heads, side (key b) (key a) = some s := by
  rw [Sorted, heads, List.pairwise_append, List.pairwise_cons]
  constructor
  · rintro ⟨hl, ⟨ha, hr⟩, hcross⟩ s
    cases s with
    | left => exact ⟨hl, fun b hb => side_eq_left.mpr (hcross b hb a List.mem_cons_self)⟩
    | right => exact ⟨hr, fun b hb => side_eq_right.mpr (ha b hb)⟩
  · intro h
    have hl : ∀ b ∈ (sub .left).heads, key b < key a := fun b hb => side_eq_left.mp ((h .left).2 b hb)
    have hr : ∀ b ∈ (sub .right).heads, key a < key b := fun b hb => side_eq_right.mp ((h .right).2 b hb)
    refine ⟨(h .left).1, ⟨hr, (h .right).1⟩, fun b hb d hd => ?_⟩
    rcases List.mem_cons.mp hd with rfl | hd
    · exact hl b hb
    · exact (hl b hb).trans (hr d hd)

theorem Sorted.insert (h : Sorted key t) : Sorted key (t.insert key x) := by
  induction t with
  | nil => exact List.pairwise_singleton _ _
  | node a rest sub ih =>
    have hsub := sorted_node.mp h
    cases hs : side (key x) (key a) with
    | none =>
      have heq := side_eq_none.mp hs
      rw [insert_of_eq heq, sorted_node, heq]
      exact hsub
    | some s =>
      rw [insert_of_side rest sub hs, sorted_node]
      refine (Function.forall_update_iff sub
        fun s' u => Sorted key u ∧ ∀ b ∈ u.heads, side (key b) (key a) = some s').mpr
          ⟨⟨ih s (hsub s).1, fun b hb => ?_⟩, fun s' _ => hsub s'⟩
      rcases mem_heads_insert hb with rfl | hb
      · exact hs
      · exact (hsub s).2 b hb

theorem lookup_insert :
    (t.insert key x).lookup key c = if c = key x then x :: t.lookup key c else t.lookup key c := by
  induction t with
  | nil =>
    by_cases hc : c = key x
    · have hleaf : lookup key c (node x [] fun _ => nil) = [x] := by rw [lookup, side_eq_none.mpr hc]
      exact hleaf.trans (if_pos hc).symm
    · rw [if_neg hc, insert, lookup, lookup]
      cases hs : side c (key x) with
      | none => exact absurd (side_eq_none.mp hs) hc
      | some s => rfl
  | node a rest sub ih =>
    cases hs : side (key x) (key a) with
    | none =>
      have heq := side_eq_none.mp hs
      rw [insert_of_eq heq, lookup, lookup, heq]
      by_cases hc : c = key a
      · rw [if_pos hc, side_eq_none.mpr hc]
      · rw [if_neg hc]
        cases hs' : side c (key a) with
        | none => exact absurd (side_eq_none.mp hs') hc
        | some s => rfl
    | some s =>
      rw [insert_of_side rest sub hs, lookup, lookup]
      by_cases hc : c = key x
      · subst hc
        rw [hs, if_pos rfl]
        exact (congrArg (lookup key (key x)) (Function.update_self s _ sub)).trans ((ih s).trans (if_pos rfl))
      · rw [if_neg hc]
        cases hs' : side c (key a) with
        | none => rfl
        | some s' =>
          by_cases he : s' = s
          · subst he
            exact (congrArg (lookup key c) (Function.update_self s' _ sub)).trans ((ih s').trans (if_neg hc))
          · exact congrArg (lookup key c) (Function.update_of_ne he _ sub)

theorem mem_nodes_of_mem_lookup (h : b ∈ t.lookup key c) : b ∈ t.nodes := by
  induction t with
  | nil => exact h
  | node a rest sub ih =>
    rw [mem_nodes_node]
    rw [lookup] at h
    cases hs : side c (key a) with
    | none =>
      rw [hs] at h
      exact (List.mem_cons.mp h).imp_right Or.inl
    | some s =>
      rw [hs] at h
      exact Or.inr (Or.inr ⟨s, ih s h⟩)

/-- Only the keys of the heads count. -/
theorem Sorted.congr (h : Sorted key t) (hk : ∀ b ∈ t.heads, key' b = key b) : Sorted key' t :=
  List.Pairwise.imp_of_mem (fun ha hb hlt => by rwa [hk _ ha, hk _ hb]) h

theorem lookup_congr (hk : ∀ b ∈ t.heads, key' b = key b) : t.lookup key' c = t.lookup key c := by
  induction t with
  | nil => rfl
  | node a rest sub ih =>
    rw [lookup, lookup, hk a (head_mem_heads)]
    cases side c (key a) with
    | none => rfl
    | some s => exact ih s fun b hb => hk b (mem_heads_sub hb)

end Keys

end GroupTree

end Csapp.Lib
