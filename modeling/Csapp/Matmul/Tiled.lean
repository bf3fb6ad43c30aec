import Csapp.Lib.Tiles
import Csapp.Lib.Unroll
import Csapp.Matmul.Parallel

/-!
# Matmul.Tiled — `fast_matrix_multiply`

The three outer loops run over tiles of 32 by 32 cells, the two inner ones over the cells of a tile, to which they add
the products of one tile of `A` and one of `B`; the innermost loop is unrolled.  Every loop adds to a rectangle of `C`
(`addRect`), and pieces of a rectangle or of the sums are put together by the loop around them.  The ends of the tiles
are `int`s: a dimension within 31 of the largest one makes a sum overflow (`fastMatrixMultiply_iff`).
-/

namespace Csapp.Matmul

open Csapp.Lib
open Finset (Ico)

abbrev TILE_SIZE : ℕ := 32

abbrev INT_MAX : ℕ := 2 ^ 31 - 1

/-- `for (t = 0; t < n; t += TILE_SIZE)`, with the end of the tile, `min(t + TILE_SIZE, n)`. -/
def tileLoop {σ : Type*} (n : ℕ) (body : ℕ → ℕ → σ → Option σ) (s : σ) : Option σ :=
  Lib.tileLoop TILE_SIZE INT_MAX n body s

/-- The end of every tile of a dimension is an `int`. -/
def TilesFit (n : ℕ) : Prop := n + TILE_SIZE ≤ INT_MAX + 1

section Code

variable {R : Type*} [Zero R] [Add R] [Mul R] (d : Dims) (A B : ℕ → ℕ → R)

/-- `A[i][k] * B[k][j]`. -/
def term (i j k : ℕ) : Option R :=
  if i < d.aRows ∧ k < d.aCols ∧ j < d.bCols then some (A i k * B k j) else none

/-- `C[i][j] += x`. -/
def addCell (i j : ℕ) (x : R) (C : ℕ → ℕ → R) : Option (ℕ → ℕ → R) :=
  if i < d.aRows ∧ j < d.bCols then some fun i' j' => if i' = i ∧ j' = j then C i j + x else C i' j' else none

/-- The two loops over `k`.  Where `k_end - 3` is negative, the first one makes no round, and here none before 0. -/
def tileCell (tk k_end i j : ℕ) (C : ℕ → ℕ → R) : Option (ℕ → ℕ → R) := do
  let (k, acc) ← unrolledLoop (term d A B i j) tk (k_end - 3) 4 ⟨0, 0, 0, 0⟩
  let acc1 ← sumLoop (term d A B i j) k k_end acc.sum0
  addCell d i j (acc1 + acc.sum1 + acc.sum2 + acc.sum3) C

def fastMatrixMultiply (C : ℕ → ℕ → R) : Option (ℕ → ℕ → R) :=
  tileLoop d.aRows (fun ti i_end =>
    tileLoop d.bCols fun tj j_end =>
      tileLoop d.aCols fun tk k_end =>
        forRange ti i_end fun i => forRange tj j_end fun j => tileCell d A B tk k_end i j) C

end Code

section Tiles

variable {σ : Type*} {n : ℕ} {s : σ}

theorem tileLoop_inv (body : ℕ → ℕ → σ → Option σ) (hn : TilesFit n) (I : ℕ → σ → Prop) (h0 : I 0 s)
    (hbody : ∀ t t_end s, t < t_end → t_end ≤ n → I t s → ∃ s', body t t_end s = some s' ∧ I t_end s') :
    ∃ s', tileLoop n body s = some s' ∧ I n s' :=
  Lib.tileLoop_inv body (by decide) hn I h0 hbody

theorem tileLoop_overflow {body : ℕ → ℕ → σ → Option σ} (hn : ¬ TilesFit n) : tileLoop n body s = none :=
  Lib.tileLoop_overflow (by decide) (not_le.mp hn)

end Tiles

/-! ## Rectangles -/

section Rectangles

variable {R : Type*} [CommRing R] {i₀ i₁ i₂ j₀ j₁ j₂ : ℕ} {f g C : ℕ → ℕ → R}

/-- `f` is added to the cells of a rectangle. -/
def addRect (i₀ i₁ j₀ j₁ : ℕ) (f C : ℕ → ℕ → R) : ℕ → ℕ → R := fun i j =>
  if (i₀ ≤ i ∧ i < i₁) ∧ j₀ ≤ j ∧ j < j₁ then C i j + f i j else C i j

theorem addRect_no_rows (i₀ j₀ j₁ : ℕ) (f C : ℕ → ℕ → R) : addRect i₀ i₀ j₀ j₁ f C = C := by
  funext i j
  exact if_neg fun h => absurd h.1.2 (Nat.not_lt.mpr h.1.1)

theorem addRect_no_cols (i₀ i₁ j₀ : ℕ) (f C : ℕ → ℕ → R) : addRect i₀ i₁ j₀ j₀ f C = C := by
  funext i j
  exact if_neg fun h => absurd h.2.2 (Nat.not_lt.mpr h.2.1)

theorem addRect_zero (i₀ i₁ j₀ j₁ : ℕ) (C : ℕ → ℕ → R) : addRect i₀ i₁ j₀ j₁ (fun _ _ => 0) C = C := by
  funext i j
  simp only [addRect, add_zero, ite_self]

/-- Rows below a rectangle. -/
theorem addRect_rows (h₀ : i₀ ≤ i₁) (h₁ : i₁ ≤ i₂) :
    addRect i₁ i₂ j₀ j₁ f (addRect i₀ i₁ j₀ j₁ f C) = addRect i₀ i₂ j₀ j₁ f C := by
  funext i j
  unfold addRect
  split_ifs <;> first | rfl | omega

/-- Columns to the right of a rectangle. -/
theorem addRect_cols (h₀ : j₀ ≤ j₁) (h₁ : j₁ ≤ j₂) :
    addRect i₀ i₁ j₁ j₂ f (addRect i₀ i₁ j₀ j₁ f C) = addRect i₀ i₁ j₀ j₂ f C := by
  funext i j
  unfold addRect
  split_ifs <;> first | rfl | omega

theorem addRect_add : addRect i₀ i₁ j₀ j₁ g (addRect i₀ i₁ j₀ j₁ f C) =
    addRect i₀ i₁ j₀ j₁ (fun i j => f i j + g i j) C := by
  funext i j
  by_cases h : (i₀ ≤ i ∧ i < i₁) ∧ j₀ ≤ j ∧ j < j₁
  · simp only [addRect, if_pos h, add_assoc]
  · simp only [addRect, if_neg h]

end Rectangles

/-! ## The loops -/

section Loops

variable {R : Type*} [CommRing R] {d : Dims} {A B : ℕ → ℕ → R} {tk k_end : ℕ}

/-- The sum of some of the products for a cell. -/
def partialSum (A B : ℕ → ℕ → R) (k₀ k₁ i j : ℕ) : R := ∑ k ∈ Ico k₀ k₁, A i k * B k j

theorem addCell_eq {i j : ℕ} (hi : i < d.aRows) (hj : j < d.bCols) {f : ℕ → ℕ → R} (C : ℕ → ℕ → R) :
    addCell d i j (f i j) C = some (addRect i (i + 1) j (j + 1) f C) := by
  rw [addCell, if_pos ⟨hi, hj⟩]
  refine congrArg some (funext₂ fun i' j' => ?_)
  unfold addRect
  by_cases h : i' = i ∧ j' = j
  · obtain ⟨rfl, rfl⟩ := h
    rw [if_pos ⟨rfl, rfl⟩, if_pos (by omega)]
  · rw [if_neg h, if_neg (by omega)]

/-- The two loops over `k` add the products of a tile. -/
theorem tileCell_spec {i j : ℕ} (hi : i < d.aRows) (hj : j < d.bCols) (hk : tk ≤ k_end) (hend : k_end ≤ d.aCols)
    (C : ℕ → ℕ → R) : tileCell d A B tk k_end i j C =
      some (addRect i (i + 1) j (j + 1) (partialSum A B tk k_end) C) := by
  have hread : ∀ k < k_end, term d A B i j k = some (A i k * B k j) := fun k hk => if_pos ⟨hi, by omega, hj⟩
  obtain ⟨m, s, h1, h2, h3, h4⟩ := unrolledLoop_spec hread tk (k_end - 3) (show 0 < 4 by decide) (by omega)
  have hle : tk + m * 4 ≤ k_end := by
    cases m with
    | zero => omega
    | succ m =>
      have hlast := h3 m (Nat.lt_succ_self m)
      omega
  have htotal : s.sum0 + s.sum1 + s.sum2 + s.sum3 = _ := h4
  rw [sum_rounds_four] at htotal
  have hsum : s.sum0 + ∑ k ∈ Ico (tk + m * 4) k_end, A i k * B k j + s.sum1 + s.sum2 + s.sum3 =
      partialSum A B tk k_end i j := by
    rw [partialSum, ← Finset.sum_Ico_consecutive _ (Nat.le_add_right tk (m * 4)) hle, ← htotal]
    abel
  rw [tileCell, h1, Option.bind_eq_bind, Option.bind_some]
  dsimp only
  rw [sumLoop_spec hread hle, Option.bind_eq_bind, Option.bind_some, hsum]
  exact addCell_eq hi hj C

/-- The loops over the cells of a tile. -/
theorem tile_spec {ti i_end tj j_end : ℕ} (hi : ti ≤ i_end) (hrows : i_end ≤ d.aRows) (hj : tj ≤ j_end)
    (hcols : j_end ≤ d.bCols) (hk : tk ≤ k_end) (hend : k_end ≤ d.aCols) (C : ℕ → ℕ → R) :
    forRange ti i_end (fun i => forRange tj j_end fun j => tileCell d A B tk k_end i j) C =
      some (addRect ti i_end tj j_end (partialSum A B tk k_end) C) := by
  obtain ⟨C', h1, h2⟩ := forRange_inv (s := C) (fun i => forRange tj j_end fun j => tileCell d A B tk k_end i j)
    (fun i C' => C' = addRect ti i tj j_end (partialSum A B tk k_end) C) hi (addRect_no_rows ti tj j_end _ C).symm
    (by
      rintro i s hle hlt rfl
      obtain ⟨C', h1, h2⟩ := forRange_inv (s := addRect ti i tj j_end (partialSum A B tk k_end) C)
        (fun j => tileCell d A B tk k_end i j)
        (fun j C' => C' = addRect i (i + 1) tj j (partialSum A B tk k_end)
          (addRect ti i tj j_end (partialSum A B tk k_end) C)) hj
        (addRect_no_cols i (i + 1) tj _ _).symm
        (by
          rintro j s hle' hlt' rfl
          refine ⟨_, tileCell_spec (by omega) (by omega) hk hend _, ?_⟩
          exact addRect_cols hle' (Nat.le_succ j))
      refine ⟨C', h1, ?_⟩
      rw [h2]
      exact addRect_rows hle (Nat.le_succ i))
  rw [h1, h2]

/-- The tiles of `A` and `B` for the cells of a tile. -/
theorem innerTiles_spec {ti i_end tj j_end : ℕ} (hi : ti ≤ i_end) (hrows : i_end ≤ d.aRows) (hj : tj ≤ j_end)
    (hcols : j_end ≤ d.bCols) (hfit : TilesFit d.aCols) (C : ℕ → ℕ → R) :
    tileLoop d.aCols (fun tk k_end =>
      forRange ti i_end fun i => forRange tj j_end fun j => tileCell d A B tk k_end i j) C =
      some (addRect ti i_end tj j_end (partialSum A B 0 d.aCols) C) := by
  obtain ⟨C', h1, h2⟩ := tileLoop_inv (s := C) (fun tk k_end =>
      forRange ti i_end fun i => forRange tj j_end fun j => tileCell d A B tk k_end i j) hfit
    (fun k C' => C' = addRect ti i_end tj j_end (partialSum A B 0 k) C)
    (by
      have hzero : partialSum A B 0 0 = fun _ _ => 0 := by
        funext i j
        rw [partialSum, Finset.Ico_self, Finset.sum_empty]
      rw [hzero, addRect_zero])
    (by
      rintro tk k_end s htk hk rfl
      refine ⟨_, tile_spec hi hrows hj hcols htk.le hk _, ?_⟩
      rw [addRect_add]
      refine congrArg (fun f => addRect ti i_end tj j_end f C) (funext₂ fun i j => ?_)
      exact Finset.sum_Ico_consecutive _ (Nat.zero_le tk) htk.le)
  rw [h1, h2]

/-- The tiles of a row of tiles. -/
theorem rowTiles_spec {ti i_end : ℕ} (hi : ti ≤ i_end) (hrows : i_end ≤ d.aRows) (hcols : TilesFit d.bCols)
    (hinner : 0 < d.bCols → TilesFit d.aCols) (C : ℕ → ℕ → R) :
    tileLoop d.bCols (fun tj j_end => tileLoop d.aCols fun tk k_end =>
      forRange ti i_end fun i => forRange tj j_end fun j => tileCell d A B tk k_end i j) C =
      some (addRect ti i_end 0 d.bCols (partialSum A B 0 d.aCols) C) := by
  obtain ⟨C', h1, h2⟩ := tileLoop_inv (s := C) (fun tj j_end => tileLoop d.aCols fun tk k_end =>
      forRange ti i_end fun i => forRange tj j_end fun j => tileCell d A B tk k_end i j) hcols
    (fun j C' => C' = addRect ti i_end 0 j (partialSum A B 0 d.aCols) C) (addRect_no_cols ti i_end 0 _ C).symm
    (by
      rintro tj j_end s htj hj rfl
      exact ⟨_, innerTiles_spec hi hrows htj.le hj (hinner (by omega)) _, addRect_cols (Nat.zero_le tj) htj.le⟩)
  rw [h1, h2]

/-- No end of a tile overflows in the loops that are run. -/
structure AllTilesFit (d : Dims) : Prop where
  rows : TilesFit d.aRows
  cols : 0 < d.aRows → TilesFit d.bCols
  inner : 0 < d.aRows → 0 < d.bCols → TilesFit d.aCols

/-- **The tiles** together add the product. -/
theorem fastMatrixMultiply_eq (h : AllTilesFit d) (C : ℕ → ℕ → R) :
    fastMatrixMultiply d A B C = some (addRect 0 d.aRows 0 d.bCols (partialSum A B 0 d.aCols) C) := by
  obtain ⟨C', h1, h2⟩ := tileLoop_inv (s := C) (fun ti i_end =>
      tileLoop d.bCols fun tj j_end => tileLoop d.aCols fun tk k_end =>
        forRange ti i_end fun i => forRange tj j_end fun j => tileCell d A B tk k_end i j) h.rows
    (fun i C' => C' = addRect 0 i 0 d.bCols (partialSum A B 0 d.aCols) C) (addRect_no_rows 0 0 d.bCols _ C).symm
    (by
      rintro ti i_end s hti hi rfl
      have hpos : 0 < d.aRows := by omega
      exact ⟨_, rowTiles_spec hti.le hi (h.cols hpos) (h.inner hpos) _, addRect_rows (Nat.zero_le ti) hti.le⟩)
  rw [fastMatrixMultiply, h1, h2]

theorem fastMatrixMultiply_overflow (h : ¬ AllTilesFit d) (C : ℕ → ℕ → R) : fastMatrixMultiply d A B C = none := by
  rw [fastMatrixMultiply]
  by_cases hrows : TilesFit d.aRows
  · by_cases hpos : 0 < d.aRows
    · refine tileLoop_eq_none hpos fun i_end s => ?_
      by_cases hcols : TilesFit d.bCols
      · by_cases hpos' : 0 < d.bCols
        · refine tileLoop_eq_none hpos' fun j_end s => tileLoop_overflow fun hinner => h ?_
          exact ⟨hrows, fun _ => hcols, fun _ _ => hinner⟩
        · exact absurd ⟨hrows, fun _ => hcols, fun _ hp => absurd hp hpos'⟩ h
      · exact tileLoop_overflow hcols
    · exact absurd ⟨hrows, fun hp => absurd hp hpos, fun hp => absurd hp hpos⟩ h
  · exact tileLoop_overflow hrows

/-! ## The product -/

theorem foldl_cellActions (i j n : ℕ) (c : R) :
    (cellActions i j n).foldl (fun c a => a.value A B c) c = partialSum A B 0 n i j := by
  rw [cellActions, List.foldl_cons, List.foldl_map, partialSum, ← Finset.range_eq_Ico]
  induction n with
  | zero => rfl
  | succ n ih =>
    rw [List.range_succ, List.foldl_concat, Finset.sum_range_succ, ih]
    rfl

/-- What `matrix_multiply` leaves in `C`. -/
theorem matrixMultiply_eq (C : ℕ → ℕ → R) : ∃ D, matrixMultiply d A B C = some D ∧
    ∀ i j, D i j = if i < d.aRows ∧ j < d.bCols then partialSum A B 0 d.aCols i j else C i j := by
  obtain ⟨D, h1, h2⟩ := run_spec (d := d) (A := A) (B := B) (nest 0 d.aRows d.bCols d.aCols) C (by
    intro a ha
    have hcell := exists_mem_nest_iff.mp ⟨a, ha, Prod.mk.eta.symm⟩
    rw [Int.toNat_natCast] at hcell
    exact inBounds_nest ha ⟨hcell.1.2, hcell.2⟩)
  refine ⟨D, h1, fun i j => ?_⟩
  rw [h2, filter_nest, Int.toNat_natCast]
  by_cases h : i < d.aRows ∧ j < d.bCols
  · rw [if_pos ⟨⟨Nat.zero_le i, h.1⟩, h.2⟩, if_pos h, foldl_cellActions]
  · rw [if_neg fun h' => h ⟨h'.1.2, h'.2⟩, if_neg h]
    rfl

end Loops

/-- **`fast_matrix_multiply`** computes the product into a matrix of zeros, as `matrix_multiply` does, if and only if
no end of a tile overflows. -/
theorem fastMatrixMultiply_iff {R : Type*} [CommRing R] (d : Dims) (A B : ℕ → ℕ → R) :
    (∃ D, fastMatrixMultiply d A B (fun _ _ => 0) = some D ∧ matrixMultiply d A B (fun _ _ => 0) = some D) ↔
      AllTilesFit d := by
  constructor
  · rintro ⟨D, h, -⟩
    by_contra hfit
    cases h.symm.trans (fastMatrixMultiply_overflow hfit _)
  · intro h
    obtain ⟨D, h1, h2⟩ := matrixMultiply_eq (d := d) (A := A) (B := B) fun _ _ => 0
    refine ⟨D, (fastMatrixMultiply_eq h _).trans (congrArg some (funext₂ fun i j => ?_)), h1⟩
    rw [h2, addRect]
    by_cases hin : i < d.aRows ∧ j < d.bCols
    · rw [if_pos ⟨⟨Nat.zero_le i, hin.1⟩, Nat.zero_le j, hin.2⟩, if_pos hin, zero_add]
    · rw [if_neg fun h' => hin ⟨h'.1.2, h'.2.2⟩, if_neg hin]

/-- With the largest `int` as the number of rows, the end of the last tile overflows. -/
theorem last_tile_overflows : ¬ ∃ D,
    fastMatrixMultiply ⟨INT_MAX, 0, 0⟩ (fun _ _ => (0 : ℤ)) (fun _ _ => 0) (fun _ _ => 0) = some D ∧
    matrixMultiply ⟨INT_MAX, 0, 0⟩ (fun _ _ => (0 : ℤ)) (fun _ _ => 0) (fun _ _ => 0) = some D := by
  rintro ⟨D, h, -⟩
  have hfit : ¬ TilesFit INT_MAX := by
    unfold TilesFit
    decide
  cases h.symm.trans (tileLoop_overflow hfit)

end Csapp.Matmul
