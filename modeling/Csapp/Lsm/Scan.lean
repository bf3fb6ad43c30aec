import Csapp.Lsm.Map

/-!
# Lsm.Scan — `RangeScan` and its iterator

`RangeScan(start, end)` does not look at `end`: it searches for `start`, and the iterator walks the chain of
level 0 from the node that it finds.  When `Next` finds no further node it stays at the last one, so that
`Key` and `Value` go on returning the last pair.  A scan therefore lists all pairs from `start` on
(`collect_spec`), and is what the interface promises only where there are none (`scanOk_iff`).

The database does not change while an iterator is used.  `Key` and `Value` return `none` for `nil`; the
slices that are stored are taken not to be `nil`.
-/

namespace Csapp.Lsm

open Csapp.Lib SkipList

/-! ## The iterator -/

structure SkipListIter where
  current : Option ℕ
  err : Option GoError

def newSkipListIterator (startNode : ℕ) : SkipListIter := ⟨some startNode, none⟩

namespace SkipListIter

variable (sl : SkipList)

def next (iter : SkipListIter) : Option (Bool × SkipListIter) :=
  match iter.current with
  | some x => do
    let p ← sl.forwards x 0
    match p with
    | some y => return (true, { iter with current := some y })
    | none => return (false, iter)
  | none => some (false, { iter with err := some ⟨"Iterator has reached end", []⟩ })

def key (iter : SkipListIter) : Option (Option Bytes) :=
  match iter.current with
  | some x => do
    let node ← sl.nodes[x]?
    return some node.key
  | none => some none

def value (iter : SkipListIter) : Option (Option Bytes) :=
  match iter.current with
  | some x => do
    let node ← sl.nodes[x]?
    return some node.value
  | none => some none

/-- What a loop over the iterator reads: `Key` and `Value` first and after every `Next` that returns true.
Also the iterator when `Next` has returned false. -/
def collect : ℕ → SkipListIter → Option (List (Option Bytes × Option Bytes) × SkipListIter)
  | 0, _ => none
  | fuel + 1, iter => do
    let k ← iter.key sl
    let v ← iter.value sl
    let (more, iter) ← iter.next sl
    if more then do
      let (rest, last) ← collect fuel iter
      return ((k, v) :: rest, last)
    else return ([(k, v)], iter)

/-- `Key` and `Value` return `nil`, and `Next` returns false, for `n` more calls. -/
def Ended : ℕ → SkipListIter → Prop
  | 0, iter => iter.key sl = some none ∧ iter.value sl = some none
  | n + 1, iter => iter.key sl = some none ∧ iter.value sl = some none ∧
      ∃ iter', iter.next sl = some (false, iter') ∧ Ended n iter'

end SkipListIter

/-- The parameter `end` is not used. -/
def LevelDb.rangeScan (ldb : LevelDb) (start _end : Bytes) : Option (Except GoError SkipListIter) := do
  let startNode ← ldb.entries.search start
  match startNode with
  | none => return .error ⟨"Start key not found", []⟩
  | some x => return .ok (newSkipListIterator x)

/-! ## What a scan should do -/

/-- The stored pairs between the bounds. -/
def LevelDb.inRange (ldb : LevelDb) (start limit : Bytes) : List (Bytes × Bytes) :=
  ldb.pairs.filter fun e => decide (start ≤ e.1) && decide (e.1 ≤ limit)

/-- An error if and only if there are no pairs in the range; otherwise these pairs in their order, and then
the end of the iteration as the interface describes it. -/
def ScanOk (ldb : LevelDb) (start limit : Bytes) : Prop :=
  (∃ err, ldb.rangeScan start limit = some (.error err) ∧ ldb.inRange start limit = []) ∨
    ∃ iter fuel last, ldb.rangeScan start limit = some (.ok iter) ∧ ldb.inRange start limit ≠ [] ∧
      iter.collect ldb.entries fuel =
        some ((ldb.inRange start limit).map fun e => (some e.1, some e.2), last) ∧
      ∀ n, last.Ended ldb.entries n

/-! ## What it does -/

section Scan

variable {sl : SkipList} {ldb : LevelDb} {xs : List ℕ} {x : ℕ}

theorem next_node {err : Option GoError} (h : 0 < sl.height x) : SkipListIter.next sl ⟨some x, err⟩ =
    some (match sl.next 0 x with
      | some y => (true, ⟨some y, err⟩)
      | none => (false, ⟨some x, err⟩)) := by
  simp only [SkipListIter.next, forwards_eq h, Option.bind_eq_bind, Option.bind_some]
  cases sl.next 0 x <;> rfl

theorem key_node (err : Option GoError) (h : 0 < sl.height x) :
    SkipListIter.key sl ⟨some x, err⟩ = some (some (sl.keyOf x)) ∧
      SkipListIter.value sl ⟨some x, err⟩ = some (some (sl.valueOf x)) := by
  obtain ⟨node, h1, -, h3, h4⟩ := node_of_height h
  simp [SkipListIter.key, SkipListIter.value, h1, h3, h4]

/-- The loop reads the chain from a node on, and ends at the last node. -/
theorem collect_links (err : Option GoError) : ∀ (r : List ℕ) (x fuel : ℕ), Links (sl.next 0) x r →
    (∀ y ∈ x :: r, 0 < sl.height y) → r.length < fuel → SkipListIter.collect sl fuel ⟨some x, err⟩ =
      some ((x :: r).map fun y => (some (sl.keyOf y), some (sl.valueOf y)), ⟨some (r.getLastD x), err⟩)
  | [], x, fuel + 1, hl, hh, _ => by
    obtain ⟨h1, h2⟩ := key_node err (hh x List.mem_cons_self)
    rw [SkipListIter.collect, h1, h2, next_node (hh x List.mem_cons_self), hl.next_eq]
    rfl
  | y :: r, x, fuel + 1, hl, hh, hf => by
    obtain ⟨h1, h2⟩ := key_node err (hh x List.mem_cons_self)
    have ih := collect_links err r y fuel hl.2 (fun z hz => hh z (List.mem_cons_of_mem x hz))
      (Nat.lt_of_succ_lt_succ hf)
    rw [SkipListIter.collect, h1, h2, next_node (hh x List.mem_cons_self), hl.next_eq]
    simp only [List.head?_cons, Option.bind_eq_bind, Option.bind_some, if_true, ih, List.getLastD_cons]
    rfl

/-- An iterator at a node stays at nodes. -/
theorem next_current {iter iter' : SkipListIter} {more : Bool} (h : iter.next sl = some (more, iter'))
    (hc : iter.current ≠ none) : iter'.current ≠ none := by
  obtain ⟨x, hx⟩ := Option.ne_none_iff_exists'.mp hc
  simp only [SkipListIter.next, hx, Option.bind_eq_bind, Option.bind_eq_some_iff] at h
  obtain ⟨p, -, h2⟩ := h
  cases p with
  | some y =>
    obtain ⟨-, rfl⟩ := Prod.mk.inj (Option.some.inj h2)
    exact Option.some_ne_none y
  | none =>
    obtain ⟨-, rfl⟩ := Prod.mk.inj (Option.some.inj h2)
    exact hc

theorem collect_current : ∀ {fuel : ℕ} {iter last : SkipListIter} {items : List (Option Bytes × Option Bytes)},
    iter.collect sl fuel = some (items, last) → iter.current ≠ none → last.current ≠ none
  | fuel + 1, iter, last, items, h, hc => by
    simp only [SkipListIter.collect, Option.bind_eq_bind, Option.bind_eq_some_iff] at h
    obtain ⟨k, -, v, -, ⟨more, iter'⟩, h1, h2⟩ := h
    have hc' := next_current h1 hc
    cases more with
    | false =>
      obtain ⟨-, rfl⟩ := Prod.mk.inj (Option.some.inj h2)
      exact hc'
    | true =>
      obtain ⟨⟨rest, last'⟩, h3, h4⟩ := Option.bind_eq_some_iff.mp h2
      obtain ⟨-, rfl⟩ := Prod.mk.inj (Option.some.inj h4)
      exact collect_current h3 hc'

/-- At a node the iteration has not ended as it should. -/
theorem not_ended {iter : SkipListIter} (h : iter.current ≠ none) : ¬ iter.Ended sl 0 := by
  obtain ⟨x, hx⟩ := Option.ne_none_iff_exists'.mp h
  rintro ⟨hk, -⟩
  simp only [SkipListIter.key, hx, Option.bind_eq_bind, Option.bind_eq_some_iff] at hk
  obtain ⟨node, -, h2⟩ := hk
  cases h2

/-- **`RangeScan`** fails when all keys are smaller than `start`; otherwise the iterator lists all pairs from
`start` on. -/
theorem LevelDb.Ok.rangeScan_spec (h : ldb.Ok) (start limit : Bytes) :
    (atLeast Prod.fst start ldb.pairs = [] ∧
      ldb.rangeScan start limit = some (.error ⟨"Start key not found", []⟩)) ∨
    ∃ x last, ldb.rangeScan start limit = some (.ok (newSkipListIterator x)) ∧
      atLeast Prod.fst start ldb.pairs ≠ [] ∧
      ∀ fuel, ldb.pairs.length < fuel → (newSkipListIterator x).collect ldb.entries fuel =
        some ((atLeast Prod.fst start ldb.pairs).map fun e => (some e.1, some e.2), last) := by
  obtain ⟨xs, h⟩ := h
  have hsearch := h.search_spec start
  have hpairs : atLeast Prod.fst start ldb.pairs =
      (atLeast ldb.entries.keyOf start xs).map fun x => (ldb.entries.keyOf x, ldb.entries.valueOf x) := by
    rw [LevelDb.pairs, h.entries_eq, atLeast_pairs]
  cases hrest : atLeast ldb.entries.keyOf start xs with
  | nil =>
    rw [hrest] at hsearch hpairs
    exact Or.inl ⟨hpairs, by simp [LevelDb.rangeScan, hsearch]⟩
  | cons x r =>
    rw [hrest] at hsearch hpairs
    refine Or.inr ⟨x, ⟨some (r.getLastD x), none⟩, by simp [LevelDb.rangeScan, hsearch], by simp [hpairs], ?_⟩
    intro fuel hf
    -- the chain of level 0 from `x` on
    have hsplit : xs = (below ldb.entries.keyOf start xs ++ [x]) ++ r := by
      conv_lhs => rw [← below_append_atLeast ldb.entries.keyOf start xs, hrest]
      simp
    have hpath := h.path 0 (by decide)
    rw [h.above_zero, hsplit] at hpath
    have hlinks : Links (ldb.entries.next 0) x r := by
      have hsuffix := hpath.suffix
      rwa [getLastD_append] at hsuffix
    have hheight : ∀ y ∈ x :: r, 0 < ldb.entries.height y := by
      intro y hy
      refine h.pos y ?_
      rw [hsplit, List.append_assoc]
      exact List.mem_append_right _ hy
    have hlen : r.length < fuel := by
      have hle : r.length ≤ xs.length := by
        rw [hsplit, List.length_append]
        omega
      rw [LevelDb.pairs, h.entries_eq, List.length_map] at hf
      omega
    rw [newSkipListIterator, collect_links none r x fuel hlinks hheight hlen, hpairs, List.map_map]
    rfl

/-- **A scan is right only where there is nothing to scan.** -/
theorem LevelDb.Ok.scanOk_iff (h : ldb.Ok) (start limit : Bytes) :
    ScanOk ldb start limit ↔ ∀ k ∈ ldb.keys, k < start := by
  have hkeys : atLeast Prod.fst start ldb.pairs = [] ↔ ∀ k ∈ ldb.keys, k < start := by
    constructor
    · intro hnil k hk
      obtain ⟨e, he, rfl⟩ := List.mem_map.mp hk
      rw [← below_append_atLeast Prod.fst start ldb.pairs, hnil, List.append_nil] at he
      exact lt_of_mem_below he
    · intro hall
      apply List.eq_nil_iff_forall_not_mem.mpr
      intro e he
      exact absurd (hall e.1 (List.mem_map_of_mem (atLeast_subset he))) (not_lt.mpr (h.sorted.le_of_mem_atLeast he))
  rcases h.rangeScan_spec start limit with ⟨h1, h2⟩ | ⟨x, last, h1, h2, h3⟩
  · refine iff_of_true (Or.inl ⟨_, h2, ?_⟩) (hkeys.mp h1)
    apply List.filter_eq_nil_iff.mpr
    intro e he
    have hlt := hkeys.mp h1 e.1 (List.mem_map_of_mem he)
    simp [not_le.mpr hlt]
  · refine iff_of_false ?_ (mt hkeys.mpr h2)
    rintro (⟨err, h4, -⟩ | ⟨iter, fuel, last', h4, -, h5, h6⟩)
    · rw [h1] at h4
      cases h4
    · rw [h1] at h4
      obtain rfl := Except.ok.inj (Option.some.inj h4)
      exact not_ended (collect_current h5 (Option.some_ne_none x)) (h6 0)

end Scan

/-! ## Reachable databases -/

/-- Every database that calls make of a new one has a well-formed memtable. -/
theorem reach_ok {w : World} (hw : levelDbSystem.Reach w) : w.db.Ok := by
  refine hw.induct (I := fun w => w.db.Ok) (fun w h => (Rep.init h).ok) ?_
  intro w c r w' hok hl he
  obtain ⟨⟨r', db'⟩, h1, h2⟩ := Option.map_eq_some_iff.mp he
  obtain ⟨-, rfl⟩ := Prod.mk.inj h2
  cases c with
  | get k =>
    obtain ⟨_, -, h3⟩ := Option.map_eq_some_iff.mp h1
    obtain ⟨-, rfl⟩ := Prod.mk.inj h3
    exact hok
  | has k =>
    obtain ⟨_, -, h3⟩ := Option.map_eq_some_iff.mp h1
    obtain ⟨-, rfl⟩ := Prod.mk.inj h3
    exact hok
  | put k v level =>
    obtain ⟨db₁, h3, h4, -⟩ := hok.put_spec k v hl
    rw [LevelDb.call, h3] at h1
    obtain ⟨-, rfl⟩ := Prod.mk.inj (Option.some.inj h1)
    exact h4
  | delete k =>
    obtain ⟨res, db₁, h3, h4, -⟩ := hok.delete_spec k
    rw [LevelDb.call, h3] at h1
    obtain ⟨-, rfl⟩ := Prod.mk.inj (Option.some.inj h1)
    exact h4

/-- **A scan of a reachable database** does what it should iff no stored key is at or behind `start`. -/
theorem rangeScan_iff (w : World) (hw : levelDbSystem.Reach w) (start limit : Bytes) :
    ScanOk w.db start limit ↔ ∀ k ∈ w.db.keys, k < start :=
  (reach_ok hw).scanOk_iff start limit

/-- `Put("b", 1)` and `Put("d", 2)`: a scan from `"e"` fails, as it should. -/
theorem rangeScan_iff_sample : ∃ w, levelDbSystem.after sampleWorld [.put [98] [1] 1, .put [100] [2] 3] = some w ∧
    ScanOk w.db [101] [102] := by
  have hrun : ((levelDbSystem.after sampleWorld [.put [98] [1] 1, .put [100] [2] 3]).any fun w =>
      decide (∀ k ∈ w.db.keys, k < [101])) = true := by decide +kernel
  obtain ⟨w, h1, h2, h3⟩ := System.Reach.of_after (by simp [levelDbSystem, Call.LevelOk, LevelOk, MaxLevel])
    sampleWorld_init hrun
  exact ⟨w, h1, (rangeScan_iff w h2 [101] [102]).mpr h3⟩

/-- After the same calls a scan from `"a"` to `"c"` lists `"d"` as well. -/
theorem rangeScan_not_ok : ∃ w, levelDbSystem.after sampleWorld [.put [98] [1] 1, .put [100] [2] 3] = some w ∧
    ¬ ScanOk w.db [97] [99] := by
  have hrun : ((levelDbSystem.after sampleWorld [.put [98] [1] 1, .put [100] [2] 3]).any fun w =>
      decide (¬ ∀ k ∈ w.db.keys, k < [97])) = true := by decide +kernel
  obtain ⟨w, h1, h2, h3⟩ := System.Reach.of_after (by simp [levelDbSystem, Call.LevelOk, LevelOk, MaxLevel])
    sampleWorld_init hrun
  exact ⟨w, h1, mt ((reach_ok h2).scanOk_iff [97] [99]).mp h3⟩

end Csapp.Lsm
