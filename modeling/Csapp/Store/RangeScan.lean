import Csapp.Store.LinkedList

/-!
# Store.RangeScan — `RangeScan` of the linked-list store and its iterator

A pointer to a node is the list that starts there, `nil` the empty one; `current` and `end` point into one
list, so that the pointers are equal iff the lists are.  Both loops of `RangeScan` cut the list at a key:
between the start node and the end node stand the nodes of the range (`rangeScan_eq`), and the iterator
walks from the one to the other (`Iter.next_rows`).

The database does not change while an iterator is used.
-/

namespace Csapp.LinkedList

open Csapp.Lib
open Csapp.Lsm (Bytes bytesCompare bytesCompare_lt bytesCompare_gt)

/-! ## The iterator -/

structure Iter where
  current : List Node
  end_ : List Node
  deriving DecidableEq

def newIterator (start end_ : List Node) : Iter := ⟨start, end_⟩

namespace Iter

def next (it : Iter) : Bool × Iter :=
  if it.current = [] ∨ it.current = it.end_ then (false, it)
  else
    let it := { it with current := it.current.tail }
    (decide (it.current ≠ [] ∧ it.current ≠ it.end_), it)

/-- `none` is `nil`. -/
def key (it : Iter) : Option Bytes := it.current.head?.map Node.key

def value (it : Iter) : Option Bytes := it.current.head?.map Node.value

/-- The iterator after `k` calls of `Next`. -/
def after (it : Iter) : ℕ → Iter
  | 0 => it
  | k + 1 => (it.after k).next.2

end Iter

/-! ## `RangeScan` -/

/-- The first loop: the start node. -/
def startLoop (start : Bytes) : List Node → List Node
  | [] => []
  | current :: next => if bytesCompare current.key start < 0 then startLoop start next else current :: next

/-- The second loop: the end node, which is `endNode` so far. -/
def endLoop (end_ : Bytes) : List Node → List Node → List Node
  | [], endNode => endNode
  | current :: next, endNode =>
    if bytesCompare current.key end_ ≤ 0 then endLoop end_ next (current :: next) else endNode

def LevelDb.rangeScan (ldb : LevelDb) (start end_ : Bytes) : Except String Iter :=
  let startNode := startLoop start ldb.entries
  if startNode = [] then .error "start key not found"
  else
    let endNode := endLoop end_ startNode []
    if startNode = [] ∨ endNode = [] then .error "invalid range"
    else .ok (newIterator startNode endNode.tail)

/-- The stored nodes with a key between the bounds. -/
def LevelDb.inRange (ldb : LevelDb) (start end_ : Bytes) : List Node :=
  ldb.entries.filter fun node => decide (start ≤ node.key) && decide (node.key ≤ end_)

/-- Reading the iterator before the first and after every successful `Next` yields the pairs of `rows`, and
then `Next` returns false forever. -/
structure Reads (it : Iter) (rows : List Node) : Prop where
  key : ∀ k < rows.length, (it.after k).key = rows[k]?.map Node.key
  value : ∀ k < rows.length, (it.after k).value = rows[k]?.map Node.value
  next : ∀ k, (it.after k).next.1 = decide (k + 1 < rows.length)

/-! ## The walk from the start to the end -/

section Walk

variable {rows rest : List Node}

theorem append_ne_self {node : Node} : node :: rows ++ rest ≠ rest := by
  intro h
  have hlen := congrArg List.length h
  rw [List.length_append, List.length_cons] at hlen
  omega

/-- One call of `Next` with `rows` in front of the end. -/
theorem Iter.next_rows (rows rest : List Node) : Iter.next ⟨rows ++ rest, rest⟩ =
    (decide (1 < rows.length), ⟨rows.tail ++ rest, rest⟩) := by
  cases rows with
  | nil => exact if_pos (Or.inr rfl)
  | cons node rows =>
    have hcond : ¬ (node :: rows ++ rest = [] ∨ node :: rows ++ rest = rest) := by
      rintro (h | h)
      · cases h
      · exact append_ne_self h
    rw [Iter.next, if_neg hcond]
    cases rows with
    | nil => simp
    | cons node' rows =>
      have hne : node' :: rows ++ rest ≠ [] ∧ node' :: rows ++ rest ≠ rest :=
        ⟨List.cons_ne_nil _ _, append_ne_self⟩
      refine Prod.ext ?_ rfl
      rw [decide_eq_true (show 1 < (node :: node' :: rows).length by simp)]
      exact decide_eq_true hne

theorem Iter.after_rows (rows rest : List Node) (k : ℕ) :
    Iter.after ⟨rows ++ rest, rest⟩ k = ⟨rows.drop k ++ rest, rest⟩ := by
  induction k with
  | zero => rfl
  | succ k ih => rw [Iter.after, ih, Iter.next_rows, List.tail_drop]

/-- **The walk** reads the nodes in front of the end. -/
theorem reads_rows (rows rest : List Node) : Reads ⟨rows ++ rest, rest⟩ rows := by
  have hhead : ∀ k < rows.length, (rows.drop k ++ rest).head? = rows[k]? := by
    intro k hk
    rw [List.drop_eq_getElem_cons hk, List.cons_append, List.head?_cons, List.getElem?_eq_getElem hk]
  refine ⟨fun k hk => ?_, fun k hk => ?_, fun k => ?_⟩
  · rw [Iter.after_rows, Iter.key, hhead k hk]
  · rw [Iter.after_rows, Iter.value, hhead k hk]
  · rw [Iter.after_rows, Iter.next_rows, List.length_drop, decide_eq_decide]
    omega

end Walk

/-! ## The two loops -/

section Loops

variable {start end_ : Bytes} {nodes : List Node}

/-- The first loop goes to the first node with a key that is not smaller. -/
theorem startLoop_eq (start : Bytes) (nodes : List Node) :
    startLoop start nodes = atLeast Node.key start nodes := by
  induction nodes with
  | nil => rfl
  | cons current next ih =>
    rw [startLoop]
    split_ifs with h
    · rw [ih, (below_cons_of_lt (bytesCompare_lt.mp h)).2]
    · rw [(below_cons_of_not_lt (mt bytesCompare_lt.mpr h)).2]

theorem bytesCompare_le {a b : Bytes} : bytesCompare a b ≤ 0 ↔ a ≤ b := by
  rw [← not_lt, ← gt_iff_lt, bytesCompare_gt, not_lt]

/-- The second loop goes to the last node of the run of keys that are not larger. -/
theorem endLoop_eq (end_ : Bytes) (nodes endNode : List Node) : endLoop end_ nodes endNode =
    match (upTo Node.key end_ nodes).getLast? with
    | none => endNode
    | some node => node :: beyond Node.key end_ nodes := by
  induction nodes generalizing endNode with
  | nil => rfl
  | cons current next ih =>
    rw [endLoop]
    split_ifs with h
    · obtain ⟨h1, h2⟩ := upTo_cons_of_le (f := Node.key) (l := next) (bytesCompare_le.mp h)
      rw [ih, h1, h2, List.getLast?_cons]
      cases hrun : (upTo Node.key end_ next).getLast? with
      | none =>
        -- the run ends here: nothing is dropped behind `current`
        have hsplit := upTo_append_beyond Node.key end_ next
        rw [List.getLast?_eq_none_iff.mp hrun, List.nil_append] at hsplit
        rw [hsplit]
        rfl
      | some node => rfl
    · rw [(upTo_cons_of_not_le (f := Node.key) (l := next) (mt bytesCompare_le.mpr h)).1]
      rfl

end Loops

/-! ## Scans -/

section Scan

variable {ldb : LevelDb} {start end_ : Bytes}

/-- **`RangeScan`** on a list in order: the walk over the nodes of the range, an error if there are none. -/
theorem rangeScan_eq (h : StrictBy Node.key ldb.entries) (start end_ : Bytes) :
    (ldb.inRange start end_ = [] ∧ ∃ err, ldb.rangeScan start end_ = .error err) ∨
      ∃ rest, ldb.inRange start end_ ≠ [] ∧
        atLeast Node.key start ldb.entries = ldb.inRange start end_ ++ rest ∧
        ldb.rangeScan start end_ = .ok (newIterator (ldb.inRange start end_ ++ rest) rest) := by
  have hsorted : SortedBy Node.key ldb.entries := h.imp fun hlt => le_of_lt hlt
  have hrows : ldb.inRange start end_ = upTo Node.key end_ (atLeast Node.key start ldb.entries) :=
    hsorted.filter_range start end_
  set from_ := atLeast Node.key start ldb.entries
  have hsplit := upTo_append_beyond Node.key end_ from_
  have hstart : startLoop start ldb.entries = from_ := startLoop_eq start ldb.entries
  have hend := endLoop_eq end_ from_ []
  rw [← hrows] at hsplit hend
  simp only [LevelDb.rangeScan, hstart]
  cases hlast : (ldb.inRange start end_).getLast? with
  | none =>
    rw [hlast] at hend
    refine Or.inl ⟨List.getLast?_eq_none_iff.mp hlast, ?_⟩
    split_ifs with h1 h2
    · exact ⟨_, rfl⟩
    · exact ⟨_, rfl⟩
    · exact absurd (Or.inr hend) h2
  | some node =>
    rw [hlast] at hend
    have hne : ldb.inRange start end_ ≠ [] := by
      intro hnil
      rw [hnil] at hlast
      cases hlast
    have hfrom : from_ ≠ [] := by
      intro hnil
      rw [hnil] at hrows
      exact hne hrows
    have hcond : ¬ (from_ = [] ∨ endLoop end_ from_ [] = []) := by
      rintro (hnil | hnil)
      · exact hfrom hnil
      · rw [hend] at hnil
        cases hnil
    refine Or.inr ⟨beyond Node.key end_ from_, hne, hsplit.symm, ?_⟩
    rw [if_neg hfrom, if_neg hcond, hend, hsplit]
    rfl

/-- **The range scan**: on a list in strict key order it fails if and only if no stored key is between the
bounds.  Otherwise the iterator stands at the first pair with a key that is not smaller than `start`, and
reading it yields the pairs of the range in ascending order and then its end. -/
theorem rangeScan_reads (ldb : LevelDb) (h : StrictBy Node.key ldb.entries) (start end_ : Bytes) :
    ((∃ err, ldb.rangeScan start end_ = .error err) ↔
        ∀ node ∈ ldb.entries, ¬ (start ≤ node.key ∧ node.key ≤ end_)) ∧
      ∀ it, ldb.rangeScan start end_ = .ok it →
        it.current.head? = ldb.entries.find? (fun node => decide (start ≤ node.key)) ∧
          Reads it (ldb.inRange start end_) ∧ StrictBy Node.key (ldb.inRange start end_) := by
  have hnone : ldb.inRange start end_ = [] ↔
      ∀ node ∈ ldb.entries, ¬ (start ≤ node.key ∧ node.key ≤ end_) := by
    rw [LevelDb.inRange, List.filter_eq_nil_iff]
    simp only [Bool.and_eq_true, decide_eq_true_eq]
  rcases rangeScan_eq h start end_ with ⟨h1, err, h2⟩ | ⟨rest, h1, h2, h3⟩
  · refine ⟨iff_of_true ⟨err, h2⟩ (hnone.mp h1), fun it hit => ?_⟩
    rw [h2] at hit
    cases hit
  · refine ⟨iff_of_false ?_ (mt hnone.mpr h1), fun it hit => ?_⟩
    · rintro ⟨err, herr⟩
      rw [h3] at herr
      cases herr
    · rw [h3] at hit
      obtain rfl := Except.ok.inj hit
      refine ⟨?_, reads_rows _ _, List.Pairwise.sublist List.filter_sublist h⟩
      rw [← atLeast_head?, h2]
      rfl

/-- Every key with itself as its value. -/
def sampleStore (keys : List Bytes) : LevelDb := ⟨keys.map fun key => ⟨key, key⟩⟩

/-- From `"b"` to `"d"`: two of four pairs, and `Next` returns false from the second call on. -/
theorem rangeScan_reads_sample :
    ∃ it, (sampleStore [[97], [98], [100], [101]]).rangeScan [98] [100] = .ok it ∧
      (it.after 1).key = some [100] ∧ it.next.1 = true ∧ ∀ k, (it.after (k + 1)).next.1 = false := by
  have hstrict : StrictBy Node.key (sampleStore [[97], [98], [100], [101]]).entries := by unfold StrictBy; decide
  obtain ⟨-, hok⟩ := rangeScan_reads (sampleStore [[97], [98], [100], [101]]) hstrict [98] [100]
  have hscan : (sampleStore [[97], [98], [100], [101]]).rangeScan [98] [100] =
      .ok ⟨(sampleStore [[98], [100], [101]]).entries, (sampleStore [[101]]).entries⟩ := by decide
  have hlen : ((sampleStore [[97], [98], [100], [101]]).inRange [98] [100]).length = 2 := by decide
  obtain ⟨-, hreads, -⟩ := hok _ hscan
  refine ⟨_, hscan, (hreads.key 1 (by decide)).trans (by decide), (hreads.next 0).trans (by decide), fun k => ?_⟩
  rw [hreads.next (k + 1), hlen]
  exact decide_eq_false (by omega)

end Scan

end Csapp.LinkedList
