import Csapp.Lsm.Edit
import Csapp.Lib.Run

/-!
# Lsm.Run — all runs of a skip list

`skipListSystem` has the runs from `NewSkipList` under any sequence of operations and any levels that
`randomLevel` may draw (`randomLevel_range`, `exists_coins`).  `skipListSystem_invariant` carries the
chain invariant through all of them; `wellFormed_reach` is what it says of the chains that a reader of
the structure sees, and `search_lower_bound` what a search in such a list returns.
-/

namespace Csapp.Lsm

open Csapp.Lib SkipList

/-! ## The level of a new node -/

theorem randomLevelLoop_range (coins : ℕ → Bool) : ∀ n level drawn,
    level ≤ (randomLevelLoop coins n level drawn).1 ∧ (randomLevelLoop coins n level drawn).1 ≤ level + n
  | 0, level, drawn => ⟨le_rfl, le_rfl⟩
  | n + 1, level, drawn => by
    have ih := randomLevelLoop_range coins n (level + 1) (drawn + 1)
    rw [randomLevelLoop]
    split_ifs
    · omega
    · exact ⟨le_rfl, by omega⟩

/-- A level that `randomLevel` may return. -/
def LevelOk (level : ℕ) : Prop := 1 ≤ level ∧ level ≤ MaxLevel

instance (level : ℕ) : Decidable (LevelOk level) := inferInstanceAs (Decidable (_ ∧ _))

theorem randomLevel_range {sl : SkipList} (h : sl.maxLevel = MaxLevel) (coins : ℕ → Bool) :
    LevelOk (sl.randomLevel coins) := by
  have := randomLevelLoop_range coins (sl.maxLevel - 1) 1 0
  rw [h] at this
  unfold LevelOk randomLevel
  rw [h]
  omega

/-- `k` heads and then tails. -/
theorem randomLevelLoop_eq {coins : ℕ → Bool} {k : ℕ} (h1 : ∀ j < k, coins j = true) (h2 : coins k = false) :
    ∀ n level drawn, drawn ≤ k → k - drawn ≤ n →
      (randomLevelLoop coins n level drawn).1 = level + (k - drawn)
  | 0, level, drawn, _, hn => by rw [randomLevelLoop]; omega
  | n + 1, level, drawn, hd, hn => by
    rw [randomLevelLoop]
    by_cases hk : drawn = k
    · subst hk; rw [h2]; simp
    · rw [h1 drawn (by omega), if_pos rfl, randomLevelLoop_eq h1 h2 n (level + 1) (drawn + 1) (by omega)
        (by omega)]
      omega

/-- Every such level is drawn for some coins. -/
theorem exists_coins {sl : SkipList} (h : sl.maxLevel = MaxLevel) {level : ℕ} (hl : LevelOk level) :
    ∃ coins, sl.randomLevel coins = level := by
  obtain ⟨h1, h2⟩ := hl
  refine ⟨fun j => decide (j < level - 1), ?_⟩
  rw [randomLevel, h, randomLevelLoop_eq (k := level - 1) (fun j hj => decide_eq_true hj)
    (decide_eq_false (lt_irrefl _)) _ 1 0 (Nat.zero_le _) (by omega)]
  omega

/-! ## Runs -/

/-- A call, with the level that is drawn if it inserts. -/
inductive Op
  | insert (key value : Bytes) (level : ℕ)
  | update (key value : Bytes) (level : ℕ)
  | delete (key : Bytes)
  | search (key : Bytes)

inductive OpResult
  | done
  | deleted (err : Except GoError Unit)
  | found (node : Option ℕ)

def Op.LevelOk : Op → Prop
  | .insert _ _ level => Lsm.LevelOk level
  | .update _ _ level => Lsm.LevelOk level
  | .delete _ => True
  | .search _ => True

def execOp (sl : SkipList) : Op → Option (OpResult × SkipList)
  | .insert key value level => (sl.insert key value level).map fun sl' => (.done, sl')
  | .update key value level => (sl.update key value level).map fun sl' => (.done, sl')
  | .delete key => (sl.delete key).map fun p => (.deleted p.1, p.2)
  | .search key => (sl.search key).map fun x => (.found x, sl)

/-- A skip list under any calls. -/
def skipListSystem : System SkipList Op OpResult where
  init sl := sl = newSkipList
  legal _ op := op.LevelOk
  exec := execOp

theorem newSkipList_inv : Inv newSkipList [] where
  maxLevel_eq := rfl
  height_head := rfl
  nodup := List.nodup_singleton head
  pos x hx := absurd hx List.not_mem_nil
  le x hx := absurd hx List.not_mem_nil
  level_le := Nat.zero_le _
  top h := absurd h (Nat.not_lt_zero 1)
  sorted := List.Pairwise.nil
  path i hi := by
    have hf : newSkipList.forwards head i = some none := by
      simp only [forwards, newSkipList, List.getElem?_cons_zero, Option.bind_eq_bind, Option.bind_some]
      rw [List.getElem?_replicate, if_pos hi]
    show newSkipList.next i head = none
    rw [next, hf]
    rfl

/-- **Every call of every run returns and keeps the chains.** -/
theorem skipListSystem_invariant : skipListSystem.Invariant fun sl => ∃ xs, Inv sl xs where
  init := by
    rintro sl rfl
    exact ⟨[], newSkipList_inv⟩
  step := by
    rintro sl op ⟨xs, h⟩ hl
    cases op with
    | insert key value level =>
      obtain ⟨sl', xs', h1, h2, -⟩ := h.insert_spec key value hl.1 hl.2
      exact ⟨.done, sl', by simp [skipListSystem, execOp, h1], xs', h2⟩
    | update key value level =>
      obtain ⟨sl', xs', h1, h2, -⟩ := h.update_spec key value hl.1 hl.2
      exact ⟨.done, sl', by simp [skipListSystem, execOp, h1], xs', h2⟩
    | delete key =>
      obtain ⟨r, sl', xs', h1, h2, -⟩ := h.delete_spec key
      exact ⟨.deleted r, sl', by simp [skipListSystem, execOp, h1], xs', h2⟩
    | search key =>
      exact ⟨.found (atLeast sl.keyOf key xs).head?, sl,
        by simp [skipListSystem, execOp, h.search_spec], xs, h⟩

/-! ## What a reader sees -/

/-- The representation invariant, in terms of the chains that reading from `Head` yields. -/
structure WellFormed (sl : SkipList) : Prop where
  /-- Reading a level comes to an end, and meets no node twice. -/
  ends : ∀ i < MaxLevel, Links (sl.next i) head (sl.chain i) ∧ (sl.chain i).Nodup
  sorted : ∀ i < MaxLevel, SortedBy sl.keyOf (sl.chain i)
  sub : ∀ i, i + 1 < MaxLevel → (sl.chain (i + 1)).Sublist (sl.chain i)
  height : ∀ x ∈ sl.chain 0, ∀ i, x ∈ sl.chain i ↔ i < sl.height x
  nil_above : ∀ i, sl.level ≤ i → i < MaxLevel → sl.forwards head i = some none
  level_le : sl.level ≤ MaxLevel
  top : 1 < sl.level → sl.chain (sl.level - 1) ≠ []

/-- Above the top level there is nothing to read. -/
theorem SkipList.Inv.chain_nil {sl : SkipList} {xs : List ℕ} (h : Inv sl xs) {i : ℕ} (hi : MaxLevel ≤ i) :
    sl.chain i = [] := by
  have hn : sl.next i head = none := by
    obtain ⟨node, h1, h2, -⟩ := node_of_height
      (show 0 < sl.height head by rw [h.height_head]; decide)
    have hf : node.forwards[i]? = none := List.getElem?_eq_none (by rw [h2, h.height_head]; exact hi)
    simp [next, forwards, h1, hf]
  unfold chain
  cases sl.nodes.length with
  | zero => rfl
  | succ n => rw [walk, hn]

theorem SkipList.Inv.wellFormed {sl : SkipList} {xs : List ℕ} (h : Inv sl xs) : WellFormed sl where
  ends i hi := by
    rw [h.chain_eq hi]
    exact ⟨h.path i hi, List.filter_sublist.nodup (List.nodup_cons.mp h.nodup).2⟩
  sorted i hi := by
    rw [h.chain_eq hi]
    exact h.sorted.sublist List.filter_sublist
  sub i hi := by
    rw [h.chain_eq hi, h.chain_eq (Nat.lt_of_succ_lt hi)]
    refine List.monotone_filter_right xs fun x hx => ?_
    rw [decide_eq_true_eq] at hx ⊢
    omega
  height x hx i := by
    rw [h.chain_eq (by decide), h.above_zero] at hx
    by_cases hi : i < MaxLevel
    · rw [h.chain_eq hi, mem_above]
      exact ⟨fun hm => hm.2, fun hlt => ⟨hx, hlt⟩⟩
    · have := h.le x hx
      have := h.level_le
      rw [h.chain_nil (not_lt.mp hi)]
      exact iff_of_false List.not_mem_nil (by omega)
  nil_above i h1 h2 := by
    rw [forwards_eq (by rw [h.height_head]; exact h2), (h.path i h2).next_eq,
      h.above_of_le h1 (List.Subset.refl xs)]
    rfl
  level_le := h.level_le
  top hl := by
    obtain ⟨x, hx, hxl⟩ := h.top hl
    have hle := h.level_le
    rw [h.chain_eq (by omega)]
    exact List.ne_nil_of_mem (mem_above.mpr ⟨hx, by omega⟩)

/-- **Representation invariant**: in every reachable state the chains are well formed, and no operation
with any level that `randomLevel` may draw panics. -/
theorem wellFormed_reach (sl : SkipList) (h : skipListSystem.Reach sl) :
    WellFormed sl ∧ ∀ op : Op, op.LevelOk → ∃ r sl', execOp sl op = some (r, sl') := by
  obtain ⟨xs, hinv⟩ := skipListSystem_invariant.reach h
  refine ⟨hinv.wellFormed, fun op hop => ?_⟩
  obtain ⟨r, sl', h1, -⟩ := skipListSystem_invariant.progress h hop
  exact ⟨r, sl', h1⟩

/-- `"b"` of height 2 and `"a"` of height 1. -/
def sampleList : SkipList where
  nodes := [⟨[], [], some 2 :: some 1 :: List.replicate 14 none⟩, ⟨[98], [1], [none, none]⟩,
    ⟨[97], [2], [some 1]⟩]
  level := 2
  maxLevel := 16

theorem sampleList_reach : skipListSystem.Reach sampleList :=
  .step (a := .insert [97] [2] 1) (r := .done)
    (.step (a := .insert [98] [1] 2) (r := .done) (.init rfl) (by decide : LevelOk 2) rfl)
    (by decide : LevelOk 1) rfl

theorem wellFormed_reach_sample : skipListSystem.Reach sampleList ∧ WellFormed sampleList ∧
    ∃ r sl', execOp sampleList (.delete [98]) = some (r, sl') := by
  obtain ⟨h1, h2⟩ := wellFormed_reach sampleList sampleList_reach
  exact ⟨sampleList_reach, h1, h2 (.delete [98]) trivial⟩

/-- **`Search` is a lower bound**: in every list that calls make of a new one, with any levels, it returns
the first node of the level-0 chain whose key is not smaller, and `nil` exactly when all keys are. -/
theorem search_lower_bound (sl : SkipList) (h : skipListSystem.Reach sl) (key : Bytes) :
    sl.search key = some ((sl.chain 0).find? fun x => decide (key ≤ sl.keyOf x)) ∧
      (sl.search key = some none ↔ ∀ e ∈ sl.entries, e.1 < key) := by
  obtain ⟨xs, hinv⟩ := skipListSystem_invariant.reach h
  have hchain : sl.chain 0 = xs := by rw [hinv.chain_eq (by decide), hinv.above_zero]
  have hsearch : sl.search key = some ((sl.chain 0).find? fun x => decide (key ≤ sl.keyOf x)) := by
    rw [hinv.search_spec, atLeast_head?, hchain]
  refine ⟨hsearch, ?_⟩
  rw [hsearch, Option.some.injEq, List.find?_eq_none, hchain, hinv.entries_eq]
  simp only [List.mem_map, forall_exists_index, and_imp, forall_apply_eq_imp_iff₂, decide_eq_true_eq, not_le]

/-- In `"a"`, `"b"` the lower bound of `"ab"` is the node of `"b"`. -/
theorem search_lower_bound_sample : sampleList.search [97, 98] = some (some 1) := by
  obtain ⟨h, -⟩ := search_lower_bound sampleList sampleList_reach [97, 98]
  exact h.trans (by decide)

end Csapp.Lsm
