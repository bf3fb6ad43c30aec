import Csapp.Lsm.Db

/-!
# Lsm.Trace — the levels do not show

A `Request` is an operation as a caller makes it, without the level; `trace` is what the caller sees of a
run: after every step the answer and the level-0 pairs.  Every new node draws its level by `randomLevel`
from the coins of its step.  The skip list refines the sorted multimap of `Lib.SortedList`
(`SkipList.Inv.trace_eq`), which has no levels, so any two runs of the same requests look the same.
-/

namespace Csapp.Lsm

open Csapp.Lib SkipList

inductive Request
  | insert (key value : Bytes)
  | update (key value : Bytes)
  | delete (key : Bytes)
  | search (key : Bytes)

/-- The operation, with its level drawn from `coins`. -/
def Request.op (sl : SkipList) (coins : ℕ → Bool) : Request → Op
  | .insert key value => .insert key value (sl.randomLevel coins)
  | .update key value => .update key value (sl.randomLevel coins)
  | .delete key => .delete key
  | .search key => .search key

/-- The answer to a request; a node that `Search` returns is seen through its key and its value. -/
inductive Answer
  | done
  | deleted (err : Except GoError Unit)
  | found (pair : Option (Bytes × Bytes))

def SkipList.answer (sl : SkipList) : OpResult → Option Answer
  | .done => some .done
  | .deleted err => some (.deleted err)
  | .found none => some (.found none)
  | .found (some x) => do
    let node ← sl.nodes[x]?
    return .found (some (node.key, node.value))

/-- A run of `requests`, the next of which draws its level from `coins 0`: the answers, each with the
level-0 pairs after the step. -/
def trace (sl : SkipList) (coins : ℕ → ℕ → Bool) : List Request → Option (List (Answer × List (Bytes × Bytes)))
  | [] => some []
  | request :: requests => do
    let (result, sl) ← execOp sl (request.op sl (coins 0))
    let answer ← sl.answer result
    let rest ← trace sl (fun i => coins (i + 1)) requests
    return (answer, sl.entries) :: rest

/-! ## The multimap -/

/-- A request on a sorted multimap. -/
def Request.apply (es : List (Bytes × Bytes)) : Request → Answer × List (Bytes × Bytes)
  | .insert key value => (.done, insertEntry key value es)
  | .update key value => (.done, updateEntry key value es)
  | .delete key => (.deleted (deleted key es).1, (deleted key es).2)
  | .search key => (.found (searchEntry key es), es)

def multimapTrace (es : List (Bytes × Bytes)) : List Request → List (Answer × List (Bytes × Bytes))
  | [] => []
  | request :: requests => request.apply es :: multimapTrace (request.apply es).2 requests

/-! ## Refinement -/

section Refinement

variable {sl : SkipList} {xs : List ℕ}

/-- One step answers and changes the pairs as the multimap does, whatever the coins. -/
theorem SkipList.Inv.request_step (h : sl.Inv xs) (coins : ℕ → Bool) (request : Request) :
    ∃ result sl' xs', execOp sl (request.op sl coins) = some (result, sl') ∧ sl'.Inv xs' ∧
      sl'.answer result = some (request.apply sl.entries).1 ∧
      sl'.entries = (request.apply sl.entries).2 := by
  have hl := randomLevel_range h.maxLevel_eq coins
  cases request with
  | insert key value =>
    obtain ⟨sl', xs', h1, h2, h3⟩ := h.insert_spec key value hl.1 hl.2
    exact ⟨.done, sl', xs', by simp [Request.op, execOp, h1], h2, rfl, h3⟩
  | update key value =>
    obtain ⟨sl', xs', h1, h2, h3⟩ := h.update_spec key value hl.1 hl.2
    exact ⟨.done, sl', xs', by simp [Request.op, execOp, h1], h2, rfl, h3⟩
  | delete key =>
    obtain ⟨r, sl', xs', h1, h2, h3⟩ := h.delete_spec key
    refine ⟨.deleted r, sl', xs', by simp [Request.op, execOp, h1], h2, ?_, ?_⟩
    · simp only [answer, Request.apply, ← h3]
    · simp only [Request.apply, ← h3]
  | search key =>
    obtain ⟨node, h1, h2, h3⟩ := h.search_pair key
    refine ⟨.found node, sl, xs, by simp [Request.op, execOp, h1], h, ?_, rfl⟩
    simp only [Request.apply, ← h2]
    cases node with
    | none => rfl
    | some x =>
      obtain ⟨n, h4, h5⟩ := h3 x rfl
      have hkey : sl.keyOf x = n.key := by simp [keyOf, h4]
      simp [answer, h4, h5, hkey]

/-- **The skip list refines the multimap** along every run. -/
theorem SkipList.Inv.trace_eq : ∀ (requests : List Request) {sl : SkipList} {xs : List ℕ} (_ : sl.Inv xs)
    (coins : ℕ → ℕ → Bool), trace sl coins requests = some (multimapTrace sl.entries requests)
  | [], _, _, _, _ => rfl
  | request :: requests, sl, xs, h, coins => by
    obtain ⟨result, sl', xs', h1, h2, h3, h4⟩ := h.request_step (coins 0) request
    have ih := SkipList.Inv.trace_eq requests h2 fun i => coins (i + 1)
    simp only [trace, h1, Option.bind_eq_bind, Option.bind_some, h3, ih, multimapTrace, h4]
    rfl

end Refinement

/-- **Randomness does not matter**: whatever coins two runs of the same requests from `NewSkipList` draw
their levels from, both run to their end, with the same answers and the same pairs after every step. -/
theorem trace_coins (requests : List Request) (coins coins' : ℕ → ℕ → Bool) :
    ∃ seen, trace newSkipList coins requests = some seen ∧ trace newSkipList coins' requests = some seen :=
  ⟨_, newSkipList_inv.trace_eq requests coins, newSkipList_inv.trace_eq requests coins'⟩

end Csapp.Lsm
