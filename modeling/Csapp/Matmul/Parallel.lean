import Csapp.Matmul.Multiply
import Mathlib.Algebra.Ring.Nat
import Mathlib.Algebra.Ring.Int.Defs

/-!
# Matmul.Parallel — when the workers compute the product

The final value of a cell depends only on the statements that write it, in their order
(`run_congr`), and these are the same in every interleaving if one worker has them all.  The leftover
worker gets `a_cols` for its last row and no `b_cols`, so the workers cover the matrix in special cases
only (`parallelMatrixMultiply_iff`).
-/

namespace Csapp.Matmul

open Csapp.Lib

/-! ## Runs -/

section Run

variable {R : Type*} [Zero R] [Add R] [Mul R] {d : Dims} {A B C : ℕ → ℕ → R}

/-- What a statement makes of the value of its cell. -/
def Action.value (A B : ℕ → ℕ → R) : Action → R → R
  | .zero _ _, _ => 0
  | .add i j k, c => c + A i k * B k j

def Action.InBounds (d : Dims) : Action → Prop
  | .zero i j => i < d.aRows ∧ j < d.bCols
  | .add i j k => i < d.aRows ∧ j < d.bCols ∧ k < d.aCols

theorem Action.exec_of_inBounds {a : Action} (h : a.InBounds d) :
    ∃ D, a.exec d A B C = some D ∧
      ∀ i j, D i j = if a.cell = (i, j) then a.value A B (C i j) else C i j := by
  cases a with
  | zero i j =>
    refine ⟨_, if_pos h, fun i' j' => ?_⟩
    simp only [Action.cell, Prod.mk.injEq, Action.value, eq_comm]
  | add i j k =>
    refine ⟨_, if_pos h, fun i' j' => ?_⟩
    by_cases hc : i' = i ∧ j' = j
    · obtain ⟨rfl, rfl⟩ := hc
      simp [Action.cell, Action.value]
    · have hc' : ¬ (i = i' ∧ j = j') := fun e => hc ⟨e.1.symm, e.2.symm⟩
      simp [Action.cell, hc, hc']

theorem Action.exec_of_not_inBounds {a : Action} (h : ¬ a.InBounds d) : a.exec d A B C = none := by
  cases a with
  | zero i j => exact if_neg h
  | add i j k => exact if_neg h

/-- Each cell at the end, from the statements that write it. -/
theorem run_spec : ∀ (as : List Action) (C : ℕ → ℕ → R), (∀ a ∈ as, a.InBounds d) →
    ∃ D, run d A B as C = some D ∧
      ∀ i j, D i j = (as.filter fun a => a.cell = (i, j)).foldl (fun c a => a.value A B c) (C i j)
  | [], C, _ => ⟨C, rfl, fun _ _ => rfl⟩
  | a :: as, C, h => by
    obtain ⟨D, h1, h2⟩ := Action.exec_of_inBounds (A := A) (B := B) (C := C) (h a List.mem_cons_self)
    obtain ⟨E, h3, h4⟩ := run_spec as D fun b hb => h b (List.mem_cons_of_mem a hb)
    refine ⟨E, by rw [run, h1, Option.bind_some, h3], fun i j => ?_⟩
    rw [h4, h2, List.filter_cons]
    by_cases hc : a.cell = (i, j)
    · simp [hc]
    · simp [hc]

/-- **Runs with the same statements for each cell** have one result. -/
theorem run_congr {as as' : List Action} (h : ∀ a ∈ as, a.InBounds d) (h' : ∀ a ∈ as', a.InBounds d)
    (heq : ∀ i j, (as.filter fun a => a.cell = (i, j)) = as'.filter fun a => a.cell = (i, j)) :
    ∃ D, run d A B as C = some D ∧ run d A B as' C = some D := by
  obtain ⟨D, h1, h2⟩ := run_spec (A := A) (B := B) as C h
  obtain ⟨D', h3, h4⟩ := run_spec (A := A) (B := B) as' C h'
  have hD : D' = D := by
    funext i j
    rw [h2, h4, heq]
  exact ⟨D, h1, by rw [h3, hD]⟩

theorem run_eq_none {a : Action} (hb : ¬ a.InBounds d) : ∀ (as : List Action) (C : ℕ → ℕ → R), a ∈ as →
    run d A B as C = none
  | b :: as, C, ha => by
    rw [run]
    cases he : b.exec d A B C with
    | none => rfl
    | some D =>
      rcases List.mem_cons.mp ha with rfl | ha
      · rw [Action.exec_of_not_inBounds hb] at he
        cases he
      · exact run_eq_none hb as D ha

end Run

/-! ## Loop nests -/

/-- The statements of one cell. -/
def cellActions (i j n : ℕ) : List Action := .zero i j :: (List.range n).map (.add i j)

theorem filter_cellActions (i j i' j' n : ℕ) :
    ((cellActions i' j' n).filter fun a => a.cell = (i, j)) =
      if i' = i ∧ j' = j then cellActions i j n else [] := by
  have hcell : ∀ a ∈ cellActions i' j' n, a.cell = (i', j') := by
    intro a ha
    rcases List.mem_cons.mp ha with rfl | ha
    · rfl
    · obtain ⟨k, -, rfl⟩ := List.mem_map.mp ha
      rfl
  by_cases h : i' = i ∧ j' = j
  · obtain ⟨rfl, rfl⟩ := h
    rw [if_pos ⟨rfl, rfl⟩, List.filter_eq_self]
    exact fun a ha => decide_eq_true (hcell a ha)
  · rw [if_neg h, List.filter_eq_nil_iff]
    intro a ha hc
    have := (hcell a ha).symm.trans (of_decide_eq_true hc)
    exact h (Prod.mk.inj this)

theorem filter_nest (s e : ℕ) (b : ℤ) (n i j : ℕ) :
    ((nest s e b n).filter fun a => a.cell = (i, j)) =
      if (s ≤ i ∧ i < e) ∧ j < b.toNat then cellActions i j n else [] := by
  have hrow : ∀ i', ((List.range b.toNat).flatMap fun j' => (cellActions i' j' n).filter fun a => a.cell = (i, j)) =
      if i' = i then (if j < b.toNat then cellActions i j n else []) else [] := by
    intro i'
    simp only [filter_cellActions]
    by_cases hi : i' = i
    · simp only [hi, true_and, if_true]
      rw [flatMap_ite_eq List.nodup_range j fun _ => cellActions i j n]
      simp only [List.mem_range]
    · simp [hi]
  show ((List.range' s (e - s)).flatMap fun i' => (List.range b.toNat).flatMap fun j' =>
    cellActions i' j' n).filter _ = _
  rw [List.filter_flatMap]
  simp only [List.filter_flatMap, hrow]
  rw [flatMap_ite_eq List.nodup_range' i fun _ => if j < b.toNat then cellActions i j n else []]
  simp only [List.mem_range'_1, ite_and]
  by_cases h1 : s ≤ i
  · by_cases h2 : i < e
    · simp [h1, h2, show i < s + (e - s) by omega]
    · simp [h2, show ¬ i < s + (e - s) by omega]
  · simp [h1]

/-- The cells that a nest writes. -/
theorem exists_mem_nest_iff {s e : ℕ} {b : ℤ} {n i j : ℕ} :
    (∃ a ∈ nest s e b n, a.cell = (i, j)) ↔ (s ≤ i ∧ i < e) ∧ j < b.toNat := by
  have hmem : ∀ a, (a ∈ nest s e b n ∧ a.cell = (i, j)) ↔
      a ∈ if (s ≤ i ∧ i < e) ∧ j < b.toNat then cellActions i j n else [] := by
    intro a
    rw [← filter_nest, List.mem_filter, decide_eq_true_iff]
  simp only [hmem]
  by_cases h : (s ≤ i ∧ i < e) ∧ j < b.toNat
  · simp only [if_pos h]
    exact iff_of_true ⟨.zero i j, List.mem_cons_self⟩ h
  · simp only [if_neg h]
    exact iff_of_false (fun ⟨a, ha⟩ => List.not_mem_nil ha) h

/-- All statements of a nest over `a_cols` columns of `A` are in bounds if the cells are that it writes. -/
theorem inBounds_nest {d : Dims} {s e : ℕ} {b : ℤ} {a : Action} (ha : a ∈ nest s e b d.aCols)
    (hcell : a.cell.1 < d.aRows ∧ a.cell.2 < d.bCols) : a.InBounds d := by
  obtain ⟨i, -, ha⟩ := List.mem_flatMap.mp ha
  obtain ⟨j, -, ha⟩ := List.mem_flatMap.mp ha
  rcases List.mem_cons.mp ha with rfl | ha
  · exact hcell
  · obtain ⟨k, hk, rfl⟩ := List.mem_map.mp ha
    exact ⟨hcell.1, hcell.2, List.mem_range.mp hk⟩

theorem not_inBounds {d : Dims} {a : Action} (h : ¬ (a.cell.1 < d.aRows ∧ a.cell.2 < d.bCols)) :
    ¬ a.InBounds d := by
  intro hb
  cases a with
  | zero i j => exact h hb
  | add i j k => exact h ⟨hb.1, hb.2.1⟩

/-! ## The workers -/

section Workers

variable {d : Dims} {junk : ℤ} {w i j : ℕ}

theorem splitRows_eq (d : Dims) (r : ℕ) : ∀ n s, splitRows d r n s s =
    ((List.range n).map fun t => ⟨d.aCols, d.bCols, s + t * r, s + (t + 1) * r⟩, s + n * r, s + n * r)
  | 0, s => by simp [splitRows]
  | n + 1, s => by
    have hshift : ∀ t, s + r + t * r = s + (t + 1) * r := fun t => by rw [Nat.add_mul]; omega
    rw [splitRows, splitRows_eq d r n (s + r), List.range_succ_eq_map]
    simp only [hshift, List.map_cons, List.map_map, Nat.zero_mul, Nat.add_zero, Nat.zero_add, Nat.one_mul]
    rfl

/-- The record of the leftover worker. -/
def leftover (d : Dims) (junk : ℤ) : MatrixMult :=
  ⟨d.aCols, junk, MAXTHREADS * (d.aRows / MAXTHREADS), d.aCols⟩

theorem workers_eq (d : Dims) (junk : ℤ) : workers d junk =
    ((List.range MAXTHREADS).map fun t =>
      ⟨d.aCols, d.bCols, t * (d.aRows / MAXTHREADS), (t + 1) * (d.aRows / MAXTHREADS)⟩) ++
      if d.aRows % MAXTHREADS = 0 then [] else [leftover d junk] := by
  have hdiv := Nat.div_add_mod d.aRows MAXTHREADS
  rw [workers, splitRows_eq]
  simp only [Nat.zero_add]
  by_cases h : d.aRows % MAXTHREADS = 0
  · rw [if_pos h, if_neg (by omega), List.append_nil]
  · rw [if_neg h, if_pos (by omega)]
    rfl

/-- **Which worker writes which cell.** -/
theorem writes_iff : Writes d junk w i j ↔
    (w < MAXTHREADS ∧ (w * (d.aRows / MAXTHREADS) ≤ i ∧ i < (w + 1) * (d.aRows / MAXTHREADS)) ∧ j < d.bCols) ∨
      (w = MAXTHREADS ∧ d.aRows % MAXTHREADS ≠ 0 ∧
        (MAXTHREADS * (d.aRows / MAXTHREADS) ≤ i ∧ i < d.aCols) ∧ j < junk.toNat) := by
  have hlen : ((List.range MAXTHREADS).map fun t => (⟨d.aCols, d.bCols, t * (d.aRows / MAXTHREADS),
      (t + 1) * (d.aRows / MAXTHREADS)⟩ : MatrixMult)).length = MAXTHREADS := by
    rw [List.length_map, List.length_range]
  rw [Writes, workers_eq]
  by_cases hw : w < MAXTHREADS
  · rw [List.getElem?_append_left (by omega), List.getElem?_map, List.getElem?_range hw]
    simp only [Option.map_some, Option.some.injEq, exists_eq_left', thread, exists_mem_nest_iff, Int.toNat_natCast]
    simp only [hw, true_and, Nat.ne_of_lt hw, false_and, or_false]
  · rw [List.getElem?_append_right (by omega), hlen]
    simp only [hw, false_and, false_or]
    by_cases h0 : d.aRows % MAXTHREADS = 0
    · simp [h0]
    · rw [if_neg h0]
      by_cases hw' : w = MAXTHREADS
      · subst hw'
        simp only [Nat.sub_self, List.getElem?_cons_zero, Option.some.injEq, exists_eq_left', thread, leftover,
          exists_mem_nest_iff, true_and, h0, ne_eq, not_false_eq_true]
      · have hnone : [leftover d junk][w - MAXTHREADS]? = none :=
          List.getElem?_eq_none (by simp only [List.length_singleton]; omega)
        simp [hnone, hw']

theorem mul_le_and_lt_iff {r : ℕ} (hr : 0 < r) : (w * r ≤ i ∧ i < (w + 1) * r) ↔ i / r = w := by
  rw [Nat.div_eq_iff hr, Nat.add_mul]
  omega

/-- When the workers cover the matrix: there is no leftover worker, or its record happens to be right, or
there is no cell to write and it writes none. -/
def Covered (d : Dims) (junk : ℤ) : Prop :=
  d.aRows % MAXTHREADS = 0 ∨ (d.aCols = d.aRows ∧ junk = d.bCols) ∨
    (d.bCols = 0 ∧ (junk ≤ 0 ∨ d.aCols ≤ MAXTHREADS * (d.aRows / MAXTHREADS)))

theorem writes_inBounds (hc : Covered d junk) (hw : Writes d junk w i j) : i < d.aRows ∧ j < d.bCols := by
  have hdiv := Nat.div_add_mod d.aRows MAXTHREADS
  rcases writes_iff.mp hw with ⟨hlt, ⟨-, hi⟩, hj⟩ | ⟨-, h0, ⟨hlo, hi⟩, hj⟩
  · refine ⟨?_, hj⟩
    calc i < (w + 1) * (d.aRows / MAXTHREADS) := hi
      _ ≤ MAXTHREADS * (d.aRows / MAXTHREADS) := Nat.mul_le_mul_right _ hlt
      _ ≤ d.aRows := by omega
  · rcases hc with hc | ⟨h1, h2⟩ | ⟨h1, h2⟩
    · exact absurd hc h0
    · omega
    · omega

theorem existsUnique_writes (hc : Covered d junk) (hi : i < d.aRows) (hj : j < d.bCols) :
    ∃! w, Writes d junk w i j := by
  have hdiv := Nat.div_add_mod d.aRows MAXTHREADS
  by_cases hlt : i < MAXTHREADS * (d.aRows / MAXTHREADS)
  · have hr : 0 < d.aRows / MAXTHREADS := by
      apply Nat.pos_of_ne_zero
      intro h0
      rw [h0] at hlt
      exact absurd hlt (Nat.not_lt_zero i)
    refine ⟨i / (d.aRows / MAXTHREADS), writes_iff.mpr (Or.inl ⟨?_, (mul_le_and_lt_iff hr).mpr rfl, hj⟩), ?_⟩
    · exact (Nat.div_lt_iff_lt_mul hr).mpr hlt
    · intro v hv
      rcases writes_iff.mp hv with ⟨-, hv, -⟩ | ⟨-, -, ⟨hlo, -⟩, -⟩
      · exact ((mul_le_and_lt_iff hr).mp hv).symm
      · omega
  · refine ⟨MAXTHREADS, writes_iff.mpr (Or.inr ⟨rfl, ?_, ?_, ?_⟩), ?_⟩
    · omega
    · rcases hc with hc | ⟨h1, -⟩ | ⟨h1, -⟩
      · omega
      · omega
      · omega
    · rcases hc with hc | ⟨-, h2⟩ | ⟨h1, -⟩
      · omega
      · omega
      · omega
    · intro v hv
      rcases writes_iff.mp hv with ⟨hvlt, hv, -⟩ | ⟨rfl, -⟩
      · have hle : (v + 1) * (d.aRows / MAXTHREADS) ≤ MAXTHREADS * (d.aRows / MAXTHREADS) :=
          Nat.mul_le_mul_right _ hvlt
        omega
      · rfl

/-- Every statement of a schedule belongs to a worker. -/
theorem writes_of_mem {s : List Action} (hs : Schedule d junk s) {a : Action} (ha : a ∈ s) :
    ∃ w, Writes d junk w a.cell.1 a.cell.2 ∧ ∃ m, (workers d junk)[w]? = some m ∧ a ∈ thread m := by
  obtain ⟨l, hl, hal⟩ := hs.mem_iff.mp ha
  obtain ⟨m, hm, rfl⟩ := List.mem_map.mp hl
  obtain ⟨w, hw, rfl⟩ := List.mem_iff_getElem.mp hm
  exact ⟨w, ⟨_, List.getElem?_eq_getElem hw, a, hal, rfl⟩, _, List.getElem?_eq_getElem hw, hal⟩

theorem aCols_of_mem_workers {m : MatrixMult} (hm : m ∈ workers d junk) : m.aCols = d.aCols := by
  rw [workers_eq, List.mem_append, List.mem_map] at hm
  rcases hm with ⟨t, -, rfl⟩ | hm
  · rfl
  · split_ifs at hm
    · cases hm
    · rw [List.mem_singleton.mp hm]
      rfl

theorem schedule_inBounds (hc : Covered d junk) {s : List Action} (hs : Schedule d junk s) :
    ∀ a ∈ s, a.InBounds d := by
  intro a ha
  obtain ⟨w, hw, m, hm, ham⟩ := writes_of_mem hs ha
  have hmem : m ∈ workers d junk := List.mem_of_getElem? hm
  rw [thread, aCols_of_mem_workers hmem] at ham
  exact inBounds_nest ham (writes_inBounds hc hw)

/-- **The statements of a cell** in a schedule are those of `matrix_multiply`. -/
theorem filter_schedule (hc : Covered d junk) {s : List Action} (hs : Schedule d junk s) (i j : ℕ) :
    (s.filter fun a => a.cell = (i, j)) =
      (nest 0 d.aRows d.bCols d.aCols).filter fun a => a.cell = (i, j) := by
  have hnone : ∀ {w m}, (workers d junk)[w]? = some m → ¬ Writes d junk w i j →
      ((thread m).filter fun a => a.cell = (i, j)) = [] := by
    intro w m hm hw
    rw [List.filter_eq_nil_iff]
    intro a ha hcell
    exact hw ⟨m, hm, a, ha, of_decide_eq_true hcell⟩
  rw [filter_nest]
  by_cases hin : i < d.aRows ∧ j < d.bCols
  · obtain ⟨w, hw, huniq⟩ := existsUnique_writes hc hin.1 hin.2
    obtain ⟨m, hm, a, ha, hcell⟩ := hw
    have hget : ((workers d junk).map thread)[w]? = some (thread m) := by
      rw [List.getElem?_map, hm]
      rfl
    have hfilter := hs.filter_eq (p := fun a => a.cell = (i, j)) hget (by
      intro v l hv hl
      rw [List.getElem?_map, Option.map_eq_some_iff] at hl
      obtain ⟨m', hm', rfl⟩ := hl
      exact hnone hm' fun hwr => hv (huniq v hwr))
    have hcells := exists_mem_nest_iff.mp ⟨a, ha, hcell⟩
    rw [hfilter, thread, aCols_of_mem_workers (List.mem_of_getElem? hm), filter_nest, if_pos hcells,
      if_pos ⟨⟨Nat.zero_le i, hin.1⟩, by simpa using hin.2⟩]
  · have hout : ¬ ((0 ≤ i ∧ i < d.aRows) ∧ j < (d.bCols : ℤ).toNat) := fun h =>
      hin ⟨h.1.2, by simpa using h.2⟩
    rw [if_neg hout]
    refine hs.filter_eq_nil fun l hl => ?_
    obtain ⟨m, hm, rfl⟩ := List.mem_map.mp hl
    obtain ⟨w, hw, rfl⟩ := List.mem_iff_getElem.mp hm
    exact hnone (List.getElem?_eq_getElem hw) fun hwr => hin (writes_inBounds hc hwr)

end Workers

/-! ## The result -/

section Result

variable {R : Type*} [Zero R] [Add R] [Mul R] {d : Dims} {junk : ℤ}

theorem agreesWithSerial_of_covered (hc : Covered d junk) : AgreesWithSerial R d junk := by
  refine ⟨fun A B C s hs => ?_, fun i j hi hj => existsUnique_writes hc hi hj⟩
  refine run_congr (schedule_inBounds hc hs) (fun a ha => ?_) (filter_schedule hc hs)
  obtain ⟨⟨-, hrow⟩, hcol⟩ := exists_mem_nest_iff.mp ⟨a, ha, rfl⟩
  rw [Int.toNat_natCast] at hcol
  exact inBounds_nest ha ⟨hrow, hcol⟩

/-- Where the schedules run through, no worker writes outside the matrix. -/
theorem AgreesWithSerial.inBounds (h : AgreesWithSerial R d junk) {w i j : ℕ} (hw : Writes d junk w i j) :
    i < d.aRows ∧ j < d.bCols := by
  by_contra hout
  obtain ⟨m, hm, a, ha, hcell⟩ := hw
  have hs : Schedule d junk ((workers d junk).map thread).flatten := interleaving_flatten _
  have hmem : a ∈ ((workers d junk).map thread).flatten :=
    List.mem_flatten.mpr ⟨thread m, List.mem_map_of_mem (List.mem_of_getElem? hm), ha⟩
  obtain ⟨D, h1, -⟩ := h.1 (fun _ _ => 0) (fun _ _ => 0) (fun _ _ => 0) _ hs
  rw [run_eq_none (not_inBounds (by rw [hcell]; exact hout)) _ _ hmem] at h1
  cases h1

/-- **`parallel_matrix_multiply`** computes what `matrix_multiply` does if and only if the number of rows is a
multiple of `MAXTHREADS`, or `A` is square and the `b_cols` of the leftover worker happens to be right, or
`C` has no columns and the leftover worker makes no rounds. -/
theorem parallelMatrixMultiply_iff (R : Type*) [Zero R] [Add R] [Mul R] (d : Dims) (junk : ℤ) :
    AgreesWithSerial R d junk ↔ Covered d junk := by
  refine ⟨fun h => ?_, agreesWithSerial_of_covered⟩
  have hdiv := Nat.div_add_mod d.aRows MAXTHREADS
  have hle := Nat.mod_lt d.aRows (show 0 < MAXTHREADS by decide)
  by_contra hc
  obtain ⟨h0, hsq, hempty⟩ := by simpa only [Covered, not_or] using hc
  have hleft : ∀ i j, MAXTHREADS * (d.aRows / MAXTHREADS) ≤ i → i < d.aCols → j < junk.toNat →
      i < d.aRows ∧ j < d.bCols := fun i j h1 h2 h3 =>
    h.inBounds (writes_iff.mpr (Or.inr ⟨rfl, h0, ⟨h1, h2⟩, h3⟩))
  by_cases hb : d.bCols = 0
  · -- a round of the leftover worker would be outside
    have hround : ¬ (junk ≤ 0 ∨ d.aCols ≤ MAXTHREADS * (d.aRows / MAXTHREADS)) := fun h => hempty ⟨hb, h⟩
    have := hleft (MAXTHREADS * (d.aRows / MAXTHREADS)) 0 le_rfl (by omega) (by omega)
    omega
  · -- the last cell is in a row that only the leftover worker can write
    obtain ⟨w, hw, -⟩ := h.2 (d.aRows - 1) (d.bCols - 1) (by omega) (by omega)
    rcases writes_iff.mp hw with ⟨hlt, ⟨-, hi⟩, -⟩ | ⟨-, -, ⟨-, hi⟩, hj⟩
    · have hle : (w + 1) * (d.aRows / MAXTHREADS) ≤ MAXTHREADS * (d.aRows / MAXTHREADS) :=
        Nat.mul_le_mul_right _ hlt
      omega
    · have hrows : ¬ d.aRows < d.aCols := by
        intro hlt
        have := hleft d.aRows 0 (by omega) hlt (by omega)
        omega
      have hcols : ¬ d.bCols < junk.toNat := by
        intro hlt
        have := hleft (d.aRows - 1) d.bCols (by omega) (by omega) hlt
        omega
      exact hsq ⟨by omega, by omega⟩

/-- Two rows and one column of ones: the leftover worker stops at row `a_cols`, whatever its `b_cols`. -/
theorem not_agreesWithSerial_two_one : ¬ AgreesWithSerial ℤ ⟨2, 1, 1⟩ 1 := by
  intro h
  have hs : Schedule ⟨2, 1, 1⟩ 1 ((workers ⟨2, 1, 1⟩ 1).map thread).flatten := interleaving_flatten _
  obtain ⟨D, h1, h2⟩ := h.1 (fun _ _ => 1) (fun _ _ => 1) (fun _ _ => 0) _ hs
  have h1' : run ⟨2, 1, 1⟩ (fun _ _ => (1 : ℤ)) (fun _ _ => 1) [.zero 0 0, .add 0 0 0] (fun _ _ => 0) = some D := h1
  cases h1'
  have h3 := congrFun (congrFun (Option.some.inj h2) 1) 0
  exact absurd h3 (by decide)

end Result

end Csapp.Matmul
