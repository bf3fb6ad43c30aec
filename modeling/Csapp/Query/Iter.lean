import Csapp.Lib.Pull
import Csapp.Lib.Text

/-!
# Query.Iter — the iterators of `01-query-executor/iter`

An `Iter` is the tree of iterators behind an interface value, `nil` among them, and `next` is their method
`Next`; `none` is a panic, or a fuel that is too small for the loop of a `SelectionIterator`.  `rows` are
the tuples that an iterator still has to give, where each operator acts on the rows of its source as a
function on lists, and `givesRow` says that a call gives the first one of them.
-/

namespace Csapp.Query

open Csapp.Lib

structure Column where
  name : Text
  value : Text
  deriving DecidableEq

structure Tuple where
  columns : List Column
  deriving DecidableEq

/-- `ERROR_EOF` is the only error. -/
inductive IterError
  | eof
  deriving DecidableEq

structure EqualExpression where
  column : Text
  value : Text
  deriving DecidableEq

def EqualExpression.execute (ee : EqualExpression) (tup : Tuple) : Bool :=
  tup.columns.any fun val => decide (val.name = ee.column) && decide (val.value = ee.value)

/-- The columns of a projection are the keys of a map. -/
inductive Iter
  | nil
  | scan (tuples : List Tuple) (currTupleIdx : ℕ)
  | selection (source : Iter) (expression : EqualExpression)
  | limit (source : Iter) (limit count : ℤ)
  | projection (source : Iter) (columns : List Text)

def newScanIterator (tuples : List Tuple) : Iter := .scan tuples 0

def newSelectionIterator (source : Iter) (exp : EqualExpression) : Iter := .selection source exp

def newLimitIterator (source : Iter) (limit : ℤ) : Iter := .limit source limit 0

def newProjectionIterator (source : Iter) (columns : List Text) : Iter := .projection source columns

/-- The loop over the columns in `Next` of a `ProjectionIterator`. -/
def Tuple.project (tup : Tuple) (columns : List Text) : Tuple :=
  { tup with columns := tup.columns.filter fun v => columns.contains v.name }

def Iter.next : ℕ → Iter → Option (Except IterError Tuple × Iter)
  | 0, _ => none
  | _ + 1, .nil => none
  | _ + 1, .scan tuples currTupleIdx =>
    if currTupleIdx ≥ tuples.length then some (.error .eof, .scan tuples currTupleIdx)
    else tuples[currTupleIdx]?.map fun tup => (.ok tup, .scan tuples (currTupleIdx + 1))
  | fuel + 1, .selection source expression => do
    let (res, source) ← next fuel source
    match res with
    | .error _ => some (.error .eof, .selection source expression)
    | .ok tup =>
      if expression.execute tup then some (.ok tup, .selection source expression)
      else next fuel (.selection source expression)
  | fuel + 1, .limit source lim count =>
    if count ≥ lim then some (.error .eof, .limit source lim count)
    else do
      let (res, source) ← next fuel source
      match res with
      | .error err => some (.error err, .limit source lim count)
      | .ok tup => some (.ok tup, .limit source lim (count + 1))
  | fuel + 1, .projection source columns => do
    let (res, source) ← next fuel source
    match res with
    | .error err => some (.error err, .projection source columns)
    | .ok tup => some (.ok (tup.project columns), .projection source columns)

/-! ## What an iterator has to give -/

def Iter.rows : Iter → List Tuple
  | .nil => []
  | .scan tuples currTupleIdx => tuples.drop currTupleIdx
  | .selection source expression => source.rows.filter expression.execute
  | .limit source lim count => source.rows.take (lim - count).toNat
  | .projection source columns => source.rows.map fun tup => tup.project columns

/-- The tree ends in a scan. -/
def Iter.Complete : Iter → Prop
  | .nil => False
  | .scan _ _ => True
  | .selection source _ => source.Complete
  | .limit source _ _ => source.Complete
  | .projection source _ => source.Complete

/-- A fuel that is enough for a call; the loop of a selection makes a round for each row of its source. -/
def Iter.cost : Iter → ℕ
  | .nil => 0
  | .scan _ _ => 1
  | .selection source _ => source.cost + source.rows.length + 1
  | .limit source _ _ => source.cost + 1
  | .projection source _ => source.cost + 1

/-- The result of a call for the next row. -/
def result : Option Tuple → Except IterError Tuple
  | none => .error .eof
  | some tup => .ok tup

/-- A call with this fuel gives the first row and leaves the others. -/
def GivesRow (fuel : ℕ) (it : Iter) : Prop :=
  ∃ it', it.next fuel = some (result it.rows.head?, it') ∧ it'.Complete ∧ it'.rows = it.rows.tail ∧
    it'.cost ≤ it.cost

section Operators

variable {fuel : ℕ} {source : Iter}

theorem givesRow_scan (tuples : List Tuple) (i : ℕ) : GivesRow (fuel + 1) (.scan tuples i) := by
  unfold GivesRow
  rw [Iter.next, Iter.rows]
  by_cases hi : i ≥ tuples.length
  · refine ⟨.scan tuples i, ?_, trivial, ?_, le_rfl⟩
    · rw [if_pos hi, List.drop_eq_nil_of_le hi]
      rfl
    · rw [Iter.rows, List.drop_eq_nil_of_le hi]
      rfl
  · have hlt : i < tuples.length := not_le.mp hi
    refine ⟨.scan tuples (i + 1), ?_, trivial, ?_, le_rfl⟩
    · rw [if_neg hi, List.drop_eq_getElem_cons hlt, List.getElem?_eq_getElem hlt]
      rfl
    · rw [Iter.rows, List.drop_eq_getElem_cons hlt]
      rfl

/-- The loop of a selection drops rows with the rest of the fuel. -/
theorem givesRow_selection (expression : EqualExpression) (h : GivesRow fuel source)
    (hloop : ∀ it : Iter, it.Complete → it.cost ≤ fuel → GivesRow fuel it)
    (hf : source.cost + source.rows.length ≤ fuel) : GivesRow (fuel + 1) (.selection source expression) := by
  obtain ⟨source', h1, h2, h3, h4⟩ := h
  unfold GivesRow
  rw [Iter.next, h1]
  cases hrows : source.rows with
  | nil =>
    refine ⟨.selection source' expression, ?_, h2, ?_, ?_⟩
    · simp [Iter.rows, hrows, result]
    · simp [Iter.rows, h3, hrows]
    · simp only [Iter.cost, h3, hrows, List.tail_nil]
      omega
  | cons tup rest =>
    rw [hrows] at hf h3
    simp only [List.length_cons, List.tail_cons] at hf h3
    by_cases he : expression.execute tup = true
    · refine ⟨.selection source' expression, ?_, h2, ?_, ?_⟩
      · simp [Iter.rows, hrows, result, he]
      · simp [Iter.rows, h3, hrows, he]
      · simp only [Iter.cost, h3, hrows, List.length_cons]
        omega
    · obtain ⟨it', h5, h6, h7, h8⟩ := hloop (.selection source' expression) h2 (by
        simp only [Iter.cost, h3]
        omega)
      refine ⟨it', ?_, h6, ?_, h8.trans ?_⟩
      · simp only [Iter.rows, h3] at h5
        simp [Iter.rows, hrows, result, he, h5]
      · simp [Iter.rows, h7, h3, hrows, he]
      · simp only [Iter.cost, h3, hrows, List.length_cons]
        omega

theorem givesRow_limit (lim count : ℤ) (hc : source.Complete) (h : GivesRow fuel source) :
    GivesRow (fuel + 1) (.limit source lim count) := by
  unfold GivesRow
  rw [Iter.next]
  by_cases hlim : count ≥ lim
  · have hzero : (lim - count).toNat = 0 := by omega
    refine ⟨.limit source lim count, ?_, hc, ?_, le_rfl⟩
    · rw [if_pos hlim, Iter.rows, hzero]
      rfl
    · rw [Iter.rows, hzero]
      rfl
  · obtain ⟨source', h1, h2, h3, h4⟩ := h
    have hsucc : (lim - count).toNat = (lim - (count + 1)).toNat + 1 := by omega
    rw [if_neg hlim, h1]
    cases hrows : source.rows with
    | nil =>
      refine ⟨.limit source' lim count, ?_, h2, ?_, Nat.succ_le_succ h4⟩
      · simp [Iter.rows, hrows, result]
      · simp [Iter.rows, h3, hrows]
    | cons tup rest =>
      refine ⟨.limit source' lim (count + 1), ?_, h2, ?_, Nat.succ_le_succ h4⟩
      · simp [Iter.rows, hrows, result, hsucc]
      · simp [Iter.rows, h3, hrows, hsucc]

theorem givesRow_projection (columns : List Text) (h : GivesRow fuel source) :
    GivesRow (fuel + 1) (.projection source columns) := by
  obtain ⟨source', h1, h2, h3, h4⟩ := h
  unfold GivesRow
  rw [Iter.next, h1]
  refine ⟨.projection source' columns, ?_, h2, ?_, Nat.succ_le_succ h4⟩
  · cases hrows : source.rows with
    | nil => simp [Iter.rows, hrows, result]
    | cons tup rest => simp [Iter.rows, hrows, result]
  · simp [Iter.rows, h3]

end Operators

/-- **A call gives the first row** and leaves the others. -/
theorem givesRow : ∀ (fuel : ℕ) (it : Iter), it.Complete → it.cost ≤ fuel → GivesRow fuel it := by
  intro fuel
  induction fuel with
  | zero =>
    intro it hc hf
    cases it with
    | nil => cases hc
    | _ => cases hf
  | succ fuel ih =>
    intro it hc hf
    cases it with
    | nil => cases hc
    | scan tuples i => exact givesRow_scan tuples i
    | selection source expression =>
      have hcost : source.cost + source.rows.length ≤ fuel := Nat.le_of_succ_le_succ hf
      exact givesRow_selection expression (ih source hc ((Nat.le_add_right _ _).trans hcost)) ih hcost
    | limit source lim count => exact givesRow_limit lim count hc (ih source hc (Nat.le_of_succ_le_succ hf))
    | projection source columns => exact givesRow_projection columns (ih source hc (Nat.le_of_succ_le_succ hf))

/-- An iterator serves its rows. -/
theorem serves_rows (fuel : ℕ) :
    Serves (Iter.next fuel) result (fun it => it.Complete ∧ it.cost ≤ fuel) Iter.rows := by
  refine ⟨fun it hit => ?_⟩
  obtain ⟨it', h1, h2, h3, h4⟩ := givesRow fuel it hit.1 hit.2
  exact ⟨it', h1, ⟨h2, h4.trans hit.2⟩, h3⟩

end Csapp.Query
