import Csapp.Lib.Tiles

/-!
# Cache.Trans — the transpose functions of `trans.c`

The matrices lie in one memory of `int` cells: `A` has `N` rows of `M` cells and `B` has `M` rows of `N`
cells, each from its own base address.  An access outside the bounds of a matrix is `none`.  Indices are
natural numbers; so is the index of a block of the general case, whose end may be larger than an `int`: that is `none`,
too.

The source unrolls its loads into `t0, …, t7` and its stores from them.  A run of such statements is one
list of cells here, in the order of the source.
-/

namespace Csapp.Cache

open Csapp.Lib

/-- The parameters of a transpose function: the sizes and the addresses of `A` and `B`. -/
structure Args where
  M : ℕ
  N : ℕ
  A : ℕ
  B : ℕ

abbrev Mem := ℕ → Int32

abbrev INT_MAX : ℕ := 2147483647

namespace Args

/-- The address of `A[i][j]`. -/
def addrA (args : Args) (i j : ℕ) : ℕ := args.A + (i * args.M + j)

/-- The address of `B[j][i]`. -/
def addrB (args : Args) (j i : ℕ) : ℕ := args.B + (j * args.N + i)

def loadA (args : Args) (mem : Mem) (i j : ℕ) : Option Int32 :=
  if i < args.N ∧ j < args.M then some (mem (args.addrA i j)) else none

def loadB (args : Args) (mem : Mem) (j i : ℕ) : Option Int32 :=
  if j < args.M ∧ i < args.N then some (mem (args.addrB j i)) else none

/-- `B[j][i] = t`. -/
def storeB (args : Args) (mem : Mem) (j i : ℕ) (t : Int32) : Option Mem :=
  if j < args.M ∧ i < args.N then some fun k => if k = args.addrB j i then t else mem k else none

/-- `t0 = A[i][j]; t1 = …`. -/
def loadsA (args : Args) (mem : Mem) : List (ℕ × ℕ) → Option (List Int32)
  | [] => some []
  | (i, j) :: cells => do
    let t ← args.loadA mem i j
    let ts ← args.loadsA mem cells
    return t :: ts

/-- `t0 = B[j][i]; t1 = …`. -/
def loadsB (args : Args) (mem : Mem) : List (ℕ × ℕ) → Option (List Int32)
  | [] => some []
  | (j, i) :: cells => do
    let t ← args.loadB mem j i
    let ts ← args.loadsB mem cells
    return t :: ts

/-- `B[j][i] = t0; … = t1; …`. -/
def storesB (args : Args) (mem : Mem) : List (ℕ × ℕ) → List Int32 → Option Mem
  | (j, i) :: cells, t :: ts => do
    let mem ← args.storeB mem j i t
    args.storesB mem cells ts
  | _, _ => some mem

end Args

/-! ## transpose_submit -/

/-- A row of an 8 by 8 block of the 32 by 32 case. -/
def row32 (args : Args) (bj i : ℕ) (mem : Mem) : Option Mem := do
  let ts ← args.loadsA mem [(i, bj + 0), (i, bj + 1), (i, bj + 2), (i, bj + 3), (i, bj + 4), (i, bj + 5),
    (i, bj + 6), (i, bj + 7)]
  args.storesB mem [(bj + 0, i), (bj + 1, i), (bj + 2, i), (bj + 3, i), (bj + 4, i), (bj + 5, i),
    (bj + 6, i), (bj + 7, i)] ts

/-- A row of the first loop of the 64 by 64 case: its second half is parked in the columns `i + 4`. -/
def park64 (args : Args) (bj i : ℕ) (mem : Mem) : Option Mem := do
  let ts ← args.loadsA mem [(i, bj + 0), (i, bj + 1), (i, bj + 2), (i, bj + 3), (i, bj + 4), (i, bj + 5),
    (i, bj + 6), (i, bj + 7)]
  args.storesB mem [(bj + 0, i), (bj + 1, i), (bj + 2, i), (bj + 3, i), (bj + 0, i + 4), (bj + 1, i + 4),
    (bj + 2, i + 4), (bj + 3, i + 4)] ts

/-- A column of the second loop of the 64 by 64 case: the parked cells move to row `j + 4`. -/
def move64 (args : Args) (bi j : ℕ) (mem : Mem) : Option Mem := do
  let t03 ← args.loadsA mem [(bi + 4, j), (bi + 5, j), (bi + 6, j), (bi + 7, j)]
  let t47 ← args.loadsB mem [(j, bi + 4), (j, bi + 5), (j, bi + 6), (j, bi + 7)]
  let mem ← args.storesB mem [(j, bi + 4), (j, bi + 5), (j, bi + 6), (j, bi + 7)] t03
  let t03 ← args.loadsA mem [(bi + 4, j + 4), (bi + 5, j + 4), (bi + 6, j + 4), (bi + 7, j + 4)]
  args.storesB mem [(j + 4, bi + 0), (j + 4, bi + 1), (j + 4, bi + 2), (j + 4, bi + 3), (j + 4, bi + 4),
    (j + 4, bi + 5), (j + 4, bi + 6), (j + 4, bi + 7)] (t47 ++ t03)

def block32 (args : Args) (bi bj : ℕ) (mem : Mem) : Option Mem :=
  forRange bi (bi + 8) (row32 args bj) mem

def block64 (args : Args) (bi bj : ℕ) (mem : Mem) : Option Mem := do
  let mem ← forRange bi (bi + 4) (park64 args bj) mem
  forRange bj (bj + 4) (move64 args bi) mem

/-- `B[j][i] = A[i][j]`. -/
def copyCell (args : Args) (i j : ℕ) (mem : Mem) : Option Mem := do
  let t ← args.loadA mem i j
  args.storeB mem j i t

/-- The loops over the blocks of the square cases. -/
def blocks (args : Args) (size : ℕ) (block : ℕ → ℕ → Mem → Option Mem) (mem : Mem) : Option Mem :=
  forStep 0 args.N size (fun bi => forStep 0 args.M size (block bi)) mem

/-- The loops of the general case: a block ends at the edge of the matrix. -/
def blocksAny (args : Args) (mem : Mem) : Option Mem :=
  tileLoop 16 INT_MAX args.N (fun bi bi_end =>
    tileLoop 16 INT_MAX args.M fun bj bj_end =>
      forRange bi bi_end fun i => forRange bj bj_end (copyCell args i)) mem

def transposeSubmit (args : Args) (mem : Mem) : Option Mem :=
  if args.M = 32 ∧ args.N = 32 then blocks args 8 (block32 args) mem
  else if args.M = 64 ∧ args.N = 64 then blocks args 8 (block64 args) mem
  else blocksAny args mem

/-! ## trans and is_transpose -/

def trans (args : Args) (mem : Mem) : Option Mem :=
  forRange 0 args.N (fun i => forRange 0 args.M (copyCell args i)) mem

/-- The inner loop of `is_transpose` from column `j` on, with `k` rounds left: `false` at a difference. -/
def isTransposeRow (args : Args) (mem : Mem) (i : ℕ) : ℕ → ℕ → Option Bool
  | 0, _ => some true
  | k + 1, j => do
    let a ← args.loadA mem i j
    let b ← args.loadB mem j i
    if a ≠ b then return false else isTransposeRow args mem i k (j + 1)

def isTransposeFrom (args : Args) (mem : Mem) : ℕ → ℕ → Option Bool
  | 0, _ => some true
  | k + 1, i => do
    let same ← isTransposeRow args mem i args.M 0
    if same then isTransposeFrom args mem k (i + 1) else return false

def isTranspose (args : Args) (mem : Mem) : Option Int32 := do
  let same ← isTransposeFrom args mem args.N 0
  if same then return 1 else return 0

end Csapp.Cache
