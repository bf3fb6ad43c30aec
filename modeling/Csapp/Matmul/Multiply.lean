import Csapp.Lib.Interleave
import Mathlib.Data.List.Range

/-!
# Matmul.Multiply — `matrix_multiply` and `parallel_matrix_multiply`

A loop nest is the list of its statements on `C`, in the order in which it executes them.  The workers of
`parallel_matrix_multiply` execute the statements of their nests in any interleaving.  A statement that
reaches outside a matrix aborts.  The matrices are over any type with a zero, a sum and a product.
-/

namespace Csapp.Matmul

open Csapp.Lib

abbrev MAXTHREADS : ℕ := 32

/-- The sizes: `A` is `aRows` by `aCols`, `B` is `aCols` by `bCols`, and `C` is `aRows` by `bCols`. -/
structure Dims where
  aRows : ℕ
  aCols : ℕ
  bCols : ℕ

/-- `C[i][j] = 0` and `C[i][j] += A[i][k] * B[k][j]`. -/
inductive Action
  | zero (i j : ℕ)
  | add (i j k : ℕ)
  deriving DecidableEq

/-- The two inner loops for the rows from `startRow` on, before `endRow`. -/
def nest (startRow endRow : ℕ) (bCols : ℤ) (aCols : ℕ) : List Action :=
  (List.range' startRow (endRow - startRow)).flatMap fun i =>
    (List.range bCols.toNat).flatMap fun j => .zero i j :: (List.range aCols).map (.add i j)

section Run

variable {R : Type*} [Zero R] [Add R] [Mul R] (d : Dims) (A B : ℕ → ℕ → R)

def Action.exec : Action → (ℕ → ℕ → R) → Option (ℕ → ℕ → R)
  | .zero i j, C =>
    if i < d.aRows ∧ j < d.bCols then some fun i' j' => if i' = i ∧ j' = j then 0 else C i' j' else none
  | .add i j k, C =>
    if i < d.aRows ∧ j < d.bCols ∧ k < d.aCols then
      some fun i' j' => if i' = i ∧ j' = j then C i j + A i k * B k j else C i' j'
    else none

def run : List Action → (ℕ → ℕ → R) → Option (ℕ → ℕ → R)
  | [], C => some C
  | a :: as, C => (a.exec d A B C).bind (run as)

def matrixMultiply (C : ℕ → ℕ → R) : Option (ℕ → ℕ → R) :=
  run d A B (nest 0 d.aRows d.bCols d.aCols) C

end Run

/-- `struct matrix_mult`, less the three matrices, which all workers share. -/
structure MatrixMult where
  aCols : ℕ
  bCols : ℤ
  aStartRow : ℕ
  aEndRow : ℕ

/-- The loop that fills in the records, from a round with `startRow` and `endRow` on; also the values that
these have after it. -/
def splitRows (d : Dims) (rowPerThread : ℕ) : ℕ → ℕ → ℕ → List MatrixMult × ℕ × ℕ
  | 0, startRow, endRow => ([], startRow, endRow)
  | n + 1, startRow, endRow =>
    let endRow := endRow + rowPerThread
    let rest := splitRows d rowPerThread n endRow endRow
    (⟨d.aCols, d.bCols, startRow, endRow⟩ :: rest.1, rest.2)

/-- The records of all workers.  That of the leftover worker has no assignment to `b_cols`: `junk` is what
`malloc` has left there. -/
def workers (d : Dims) (junk : ℤ) : List MatrixMult :=
  let (ms, startRow, endRow) := splitRows d (d.aRows / MAXTHREADS) MAXTHREADS 0 0
  if endRow ≠ d.aRows then ms ++ [⟨d.aCols, junk, startRow, d.aCols⟩] else ms

def thread (m : MatrixMult) : List Action := nest m.aStartRow m.aEndRow m.bCols m.aCols

/-- What `parallel_matrix_multiply` does in the course of its runs. -/
def Schedule (d : Dims) (junk : ℤ) (s : List Action) : Prop :=
  Interleaving ((workers d junk).map thread) s

/-- The cell of `C` that a statement writes. -/
def Action.cell : Action → ℕ × ℕ
  | .zero i j => (i, j)
  | .add i j _ => (i, j)

/-- The worker with the number `w` writes the cell. -/
def Writes (d : Dims) (junk : ℤ) (w i j : ℕ) : Prop :=
  ∃ m, (workers d junk)[w]? = some m ∧ ∃ a ∈ thread m, a.cell = (i, j)

/-- In every interleaving of the workers the result is that of `matrix_multiply`, and every cell is written by
exactly one of them. -/
def AgreesWithSerial (R : Type*) [Zero R] [Add R] [Mul R] (d : Dims) (junk : ℤ) : Prop :=
  (∀ (A B C : ℕ → ℕ → R) (s : List Action), Schedule d junk s →
    ∃ D, run d A B s C = some D ∧ matrixMultiply d A B C = some D) ∧
  ∀ i j, i < d.aRows → j < d.bCols → ∃! w, Writes d junk w i j

end Csapp.Matmul
