import Csapp.Cache.Trans
import Csapp.Lib.Cover
import Mathlib.Algebra.Ring.Nat

/-!
# Cache.Transpose — the blocked transpose is a transpose

`View args mem₀ mem f` says that the cells of `B` hold `f` and that the rest of the memory is as in
`mem₀`; loads and stores are described through it.  A block transposes its own cells and leaves the
others alone (`Transposes`); this is shown for both kinds of square block, and the loops over the
blocks then cover the matrix, as those of the general case do unless the end of a block overflows
(`transposeSubmit_iff`).  In the 64 by 64 case the invariants of a block also tell which cells are
parked: `B[j][i + 4]` holds `A[i][j + 4]` between the two loops.
-/

namespace Csapp.Cache

open Csapp.Lib

/-! ## The two matrices -/

/-- `A` and `B` do not overlap. -/
def Args.Apart (args : Args) : Prop :=
  args.A + args.N * args.M ≤ args.B ∨ args.B + args.M * args.N ≤ args.A

instance (args : Args) : Decidable args.Apart := inferInstanceAs (Decidable (_ ∨ _))

theorem Args.Apart.ne {args : Args} (h : args.Apart) {i j i' j' : ℕ} (hi : i < args.N) (hj : j < args.M)
    (hi' : i' < args.N) (hj' : j' < args.M) : args.addrA i j ≠ args.addrB j' i' := by
  have h1 := cell_lt hi hj
  have h2 := cell_lt hj' hi'
  unfold Args.addrA Args.addrB
  rcases h with h | h <;> omega

/-- The cells of `B` hold `f`; the rest of the memory is as in `mem₀`. -/
structure View (args : Args) (mem₀ mem : Mem) (f : ℕ → ℕ → Int32) : Prop where
  cells : ∀ j i, j < args.M → i < args.N → mem (args.addrB j i) = f j i
  frame : ∀ k, (∀ j i, j < args.M → i < args.N → k ≠ args.addrB j i) → mem k = mem₀ k

section Access

variable {args : Args} {mem₀ mem : Mem} {f : ℕ → ℕ → Int32}

theorem view_self (args : Args) (mem : Mem) : View args mem mem fun j i => mem (args.addrB j i) :=
  ⟨fun _ _ _ _ => rfl, fun _ _ => rfl⟩

/-- `A` is as it was. -/
theorem View.cellA (h : View args mem₀ mem f) (ha : args.Apart) {i j : ℕ} (hi : i < args.N) (hj : j < args.M) :
    mem (args.addrA i j) = mem₀ (args.addrA i j) :=
  h.frame _ fun _ _ hj' hi' => ha.ne hi hj hi' hj'

theorem View.loadA (h : View args mem₀ mem f) (ha : args.Apart) {i j : ℕ} (hi : i < args.N) (hj : j < args.M) :
    args.loadA mem i j = some (mem₀ (args.addrA i j)) := by
  rw [Args.loadA, if_pos ⟨hi, hj⟩, h.cellA ha hi hj]

theorem View.loadB (h : View args mem₀ mem f) {i j : ℕ} (hj : j < args.M) (hi : i < args.N) :
    args.loadB mem j i = some (f j i) := by
  rw [Args.loadB, if_pos ⟨hj, hi⟩, h.cells j i hj hi]

theorem View.storeB (h : View args mem₀ mem f) {i j : ℕ} (hj : j < args.M) (hi : i < args.N) (t : Int32) :
    ∃ mem', args.storeB mem j i t = some mem' ∧
      View args mem₀ mem' fun j' i' => if j' = j ∧ i' = i then t else f j' i' := by
  refine ⟨_, if_pos ⟨hj, hi⟩, fun j' i' hj' hi' => ?_, fun k hk => ?_⟩
  · by_cases he : j' = j ∧ i' = i
    · rw [if_pos he, if_pos (by rw [he.1, he.2])]
    · rw [if_neg he, if_neg, h.cells j' i' hj' hi']
      intro haddr
      exact he (cell_inj hi' hi (Nat.add_left_cancel haddr))
  · rw [if_neg (hk j i hj hi), h.frame k hk]

theorem View.loadsA (h : View args mem₀ mem f) (ha : args.Apart) : ∀ {cells : List (ℕ × ℕ)},
    (∀ p ∈ cells, p.1 < args.N ∧ p.2 < args.M) →
      args.loadsA mem cells = some (cells.map fun p => mem₀ (args.addrA p.1 p.2))
  | [], _ => rfl
  | (i, j) :: cells, hc => by
    obtain ⟨hi, hj⟩ := hc (i, j) List.mem_cons_self
    rw [Args.loadsA, h.loadA ha hi hj, h.loadsA ha fun p hp => hc p (List.mem_cons_of_mem _ hp)]
    rfl

theorem View.loadsB (h : View args mem₀ mem f) : ∀ {cells : List (ℕ × ℕ)},
    (∀ p ∈ cells, p.1 < args.M ∧ p.2 < args.N) → args.loadsB mem cells = some (cells.map fun p => f p.1 p.2)
  | [], _ => rfl
  | (j, i) :: cells, hc => by
    obtain ⟨hj, hi⟩ := hc (j, i) List.mem_cons_self
    rw [Args.loadsB, h.loadB hj hi, h.loadsB fun p hp => hc p (List.mem_cons_of_mem _ hp)]
    rfl

/-- A run of stores, each of a value that its cell determines. -/
theorem View.storesB (φ : ℕ → ℕ → Int32) : ∀ (cells : List (ℕ × ℕ)) {mem : Mem} {f : ℕ → ℕ → Int32}
    (_ : View args mem₀ mem f), (∀ p ∈ cells, p.1 < args.M ∧ p.2 < args.N) →
      ∃ mem', args.storesB mem cells (cells.map fun p => φ p.1 p.2) = some mem' ∧
        View args mem₀ mem' fun j i => if (j, i) ∈ cells then φ j i else f j i
  | [], mem, f, h, _ => ⟨mem, rfl, by simpa using h⟩
  | (j, i) :: cells, mem, f, h, hc => by
    obtain ⟨hj, hi⟩ := hc (j, i) List.mem_cons_self
    obtain ⟨mem₁, h1, h2⟩ := h.storeB hj hi (φ j i)
    obtain ⟨mem₂, h3, h4⟩ := View.storesB φ cells h2 fun p hp => hc p (List.mem_cons_of_mem _ hp)
    refine ⟨mem₂, ?_, fun j' i' hj' hi' => ?_, h4.frame⟩
    · rw [List.map_cons, Args.storesB, h1]
      exact h3
    · rw [h4.cells j' i' hj' hi']
      simp only [List.mem_cons, Prod.mk.injEq]
      by_cases h5 : (j', i') ∈ cells
      · rw [if_pos h5, if_pos (Or.inr h5)]
      · by_cases h6 : j' = j ∧ i' = i
        · rw [if_neg h5, if_pos h6, if_pos (Or.inl h6), h6.1, h6.2]
        · rw [if_neg h5, if_neg h6, if_neg (not_or.mpr ⟨h6, h5⟩)]

end Access

/-! ## Blocks -/

/-- Within a matrix, `g` is the transpose of `A` on the cells that `D` selects, and `f` elsewhere. -/
def Transposed (args : Args) (mem₀ : Mem) (D : ℕ → ℕ → Prop) (f g : ℕ → ℕ → Int32) : Prop :=
  ∀ j i, j < args.M → i < args.N → (D j i → g j i = mem₀ (args.addrA i j)) ∧ (¬ D j i → g j i = f j i)

/-- A block of the given size transposes its own cells. -/
def Transposes (args : Args) (mem₀ : Mem) (size : ℕ) (block : ℕ → ℕ → Mem → Option Mem) : Prop :=
  ∀ k l mem f, k * size < args.N → l * size < args.M → View args mem₀ mem f →
    ∃ mem' g, block (k * size) (l * size) mem = some mem' ∧ View args mem₀ mem' g ∧
      Transposed args mem₀ (fun j i => (l * size ≤ j ∧ j < l * size + size) ∧
        (k * size ≤ i ∧ i < k * size + size)) f g

section Blocks

variable {args : Args} {mem₀ mem : Mem} {f : ℕ → ℕ → Int32}

/-- A run of stores that are final. -/
theorem View.stores_final (h : View args mem₀ mem f) (cells : List (ℕ × ℕ))
    (hc : ∀ p ∈ cells, p.1 < args.M ∧ p.2 < args.N) :
    ∃ mem' g, args.storesB mem cells (cells.map fun p => mem₀ (args.addrA p.2 p.1)) = some mem' ∧
      View args mem₀ mem' g ∧ Transposed args mem₀ (fun j i => (j, i) ∈ cells) f g := by
  obtain ⟨mem', h1, h2⟩ := View.storesB (fun j i => mem₀ (args.addrA i j)) cells h hc
  exact ⟨mem', _, h1, h2, fun j i _ _ => ⟨fun hm => if_pos hm, fun hm => if_neg hm⟩⟩

theorem Transposed.congr {D D' : ℕ → ℕ → Prop} {g : ℕ → ℕ → Int32} (h : Transposed args mem₀ D f g)
    (hD : ∀ j i, D j i ↔ D' j i) : Transposed args mem₀ D' f g := by
  intro j i hj hi
  rw [← hD j i]
  exact h j i hj hi

/-- Two steps: the second one may do cells again. -/
theorem Transposed.trans {D D' : ℕ → ℕ → Prop} {g g' : ℕ → ℕ → Int32} (h : Transposed args mem₀ D f g)
    (h' : Transposed args mem₀ D' g g') : Transposed args mem₀ (fun j i => D j i ∨ D' j i) f g' := by
  intro j i hj hi
  obtain ⟨h1, h2⟩ := h j i hj hi
  obtain ⟨h3, h4⟩ := h' j i hj hi
  constructor
  · intro hD
    by_cases hD' : D' j i
    · exact h3 hD'
    · rw [h4 hD', h1 (hD.resolve_right hD')]
  · intro hD
    obtain ⟨hn, hn'⟩ := not_or.mp hD
    rw [h4 hn', h2 hn]

theorem row32_spec (h : View args mem₀ mem f) (ha : args.Apart) {bj i : ℕ} (hj : bj + 7 < args.M)
    (hi : i < args.N) : ∃ mem' g, row32 args bj i mem = some mem' ∧ View args mem₀ mem' g ∧
      Transposed args mem₀ (fun j i' => (bj ≤ j ∧ j < bj + 8) ∧ i' = i) f g := by
  obtain ⟨mem', g, h1, h2, h3⟩ := h.stores_final [(bj + 0, i), (bj + 1, i), (bj + 2, i), (bj + 3, i),
    (bj + 4, i), (bj + 5, i), (bj + 6, i), (bj + 7, i)] (by simp; omega)
  refine ⟨mem', g, ?_, h2, h3.congr fun j i' => ?_⟩
  · rw [row32, h.loadsA ha]
    · exact h1
    · simp
      omega
  · simp only [List.mem_cons, Prod.mk.injEq, List.not_mem_nil, or_false]
    omega

/-- The invariant of a loop that transposes the cells of `D i` before its index `i`. -/
theorem forRange_transposes {lo hi : ℕ} (body : ℕ → Mem → Option Mem) (D : ℕ → ℕ → ℕ → Prop) (hle : lo ≤ hi)
    (h0 : ∀ j i, ¬ D lo j i) (h : View args mem₀ mem f)
    (hstep : ∀ k mem g, lo ≤ k → k < hi → View args mem₀ mem g → Transposed args mem₀ (D k) f g →
      ∃ mem' g', body k mem = some mem' ∧ View args mem₀ mem' g' ∧
        ∃ E, Transposed args mem₀ E g g' ∧ ∀ j i, D (k + 1) j i ↔ D k j i ∨ E j i) :
    ∃ mem' g, forRange lo hi body mem = some mem' ∧ View args mem₀ mem' g ∧ Transposed args mem₀ (D hi) f g := by
  obtain ⟨mem', h1, g, h2, h3⟩ := forRange_inv body
    (fun k mem => ∃ g, View args mem₀ mem g ∧ Transposed args mem₀ (D k) f g) hle
    ⟨f, h, fun j i _ _ => ⟨fun hD => absurd hD (h0 j i), fun _ => rfl⟩⟩ (by
      rintro k mem hlo hhi ⟨g, hv, ht⟩
      obtain ⟨mem', g', h1, h2, E, h3, h4⟩ := hstep k mem g hlo hhi hv ht
      exact ⟨mem', h1, g', h2, (ht.trans h3).congr fun j i => (h4 j i).symm⟩)
  exact ⟨mem', g, h1, h2, h3⟩

theorem block32_spec (ha : args.Apart) (hM : args.M = 32) (hN : args.N = 32) :
    Transposes args mem₀ 8 (block32 args) := by
  intro k l mem f hk hl h
  refine forRange_transposes (row32 args (l * 8))
    (fun i j i' => (l * 8 ≤ j ∧ j < l * 8 + 8) ∧ (k * 8 ≤ i' ∧ i' < i)) (by omega) (by omega) h
    fun i mem g hlo hhi hv _ => ?_
  obtain ⟨mem', g', h1, h2, h3⟩ := row32_spec hv ha (show l * 8 + 7 < args.M by omega) (show i < args.N by omega)
  exact ⟨mem', g', h1, h2, _, h3, by omega⟩

theorem copyCell_spec (h : View args mem₀ mem f) (ha : args.Apart) {i j : ℕ} (hi : i < args.N) (hj : j < args.M) :
    ∃ mem' g, copyCell args i j mem = some mem' ∧ View args mem₀ mem' g ∧
      Transposed args mem₀ (fun j' i' => j' = j ∧ i' = i) f g := by
  obtain ⟨mem', h1, h2⟩ := h.storeB hj hi (mem₀ (args.addrA i j))
  refine ⟨mem', _, ?_, h2, fun j' i' hj' hi' => ⟨fun he => ?_, fun he => if_neg he⟩⟩
  · rw [copyCell, h.loadA ha hi hj]
    exact h1
  · rw [if_pos he, he.1, he.2]

/-- A rectangle of the matrix, cell by cell. -/
theorem copyCells_spec (ha : args.Apart) {r r' c c' : ℕ} (hr : r ≤ r') (hr' : r' ≤ args.N) (hc : c ≤ c')
    (hc' : c' ≤ args.M) (h : View args mem₀ mem f) :
    ∃ mem' g, forRange r r' (fun i => forRange c c' (copyCell args i)) mem = some mem' ∧
      View args mem₀ mem' g ∧ Transposed args mem₀ (fun j i => (c ≤ j ∧ j < c') ∧ (r ≤ i ∧ i < r')) f g := by
  refine forRange_transposes _ (fun i j i' => (c ≤ j ∧ j < c') ∧ (r ≤ i' ∧ i' < i)) hr (by omega) h
    fun i mem g hi1 hi2 hv _ => ?_
  obtain ⟨mem', g', h1, h2, h3⟩ := forRange_transposes (copyCell args i)
    (fun j j' i' => (c ≤ j' ∧ j' < j) ∧ i' = i) hc (by omega) hv fun j mem g hj1 hj2 hv _ => by
      obtain ⟨mem', g', h1, h2, h3⟩ := copyCell_spec hv ha (show i < args.N by omega) (show j < args.M by omega)
      exact ⟨mem', g', h1, h2, _, h3, by omega⟩
  exact ⟨mem', g', h1, h2, _, h3, by omega⟩

/-! ### The 64 by 64 case -/

/-- After the rows before `i` of the first loop: the left half is final and the right half is parked. -/
def Parked (args : Args) (mem₀ : Mem) (bi bj i : ℕ) (f g : ℕ → ℕ → Int32) : Prop :=
  ∀ j c, j < args.M → c < args.N →
    ((bj ≤ j ∧ j < bj + 4) ∧ (bi ≤ c ∧ c < i) → g j c = mem₀ (args.addrA c j)) ∧
    ((bj ≤ j ∧ j < bj + 4) ∧ (bi + 4 ≤ c ∧ c < i + 4) → g j c = mem₀ (args.addrA (c - 4) (j + 4))) ∧
    (¬ ((bj ≤ j ∧ j < bj + 4) ∧ (bi ≤ c ∧ c < i ∨ bi + 4 ≤ c ∧ c < i + 4)) → g j c = f j c)

theorem park64_spec (h : View args mem₀ mem f) (ha : args.Apart) {bj i : ℕ} (hj : bj + 7 < args.M)
    (hi : i + 4 < args.N) : ∃ mem' g, park64 args bj i mem = some mem' ∧ View args mem₀ mem' g ∧
      Parked args mem₀ i bj (i + 1) f g := by
  obtain ⟨mem', h1, h2⟩ := View.storesB (fun j c => if c = i then mem₀ (args.addrA i j) else
    mem₀ (args.addrA i (j + 4))) [(bj + 0, i), (bj + 1, i), (bj + 2, i), (bj + 3, i), (bj + 0, i + 4),
      (bj + 1, i + 4), (bj + 2, i + 4), (bj + 3, i + 4)] h (by simp; omega)
  refine ⟨mem', _, ?_, h2, fun j c hj' hc' => ⟨fun hD => ?_, fun hD => ?_, fun hD => ?_⟩⟩
  · rw [park64, h.loadsA ha]
    · simpa using h1
    · simp
      omega
  · obtain rfl : c = i := by omega
    rw [if_pos (by simp; omega), if_pos rfl]
  · obtain rfl : c = i + 4 := by omega
    rw [if_pos (by simp; omega), if_neg (by omega), Nat.add_sub_cancel]
  · rw [if_neg (by simp; omega)]

theorem move64_spec (h : View args mem₀ mem f) (ha : args.Apart) {bi j : ℕ} (hi : bi + 7 < args.N)
    (hj : j + 4 < args.M)
    (hp : ∀ c, bi + 4 ≤ c → c < bi + 8 → f j c = mem₀ (args.addrA (c - 4) (j + 4))) :
    ∃ mem' g, move64 args bi j mem = some mem' ∧ View args mem₀ mem' g ∧
      Transposed args mem₀ (fun j' c => j' = j ∧ (bi + 4 ≤ c ∧ c < bi + 8) ∨
        j' = j + 4 ∧ (bi ≤ c ∧ c < bi + 8)) f g := by
  obtain ⟨mem₁, g₁, h1, h2, h3⟩ := h.stores_final [(j, bi + 4), (j, bi + 5), (j, bi + 6), (j, bi + 7)]
    (by simp; omega)
  obtain ⟨mem₂, g₂, h4, h5, h6⟩ := h2.stores_final [(j + 4, bi + 0), (j + 4, bi + 1), (j + 4, bi + 2),
    (j + 4, bi + 3), (j + 4, bi + 4), (j + 4, bi + 5), (j + 4, bi + 6), (j + 4, bi + 7)] (by simp; omega)
  have hmoved : [(j, bi + 4), (j, bi + 5), (j, bi + 6), (j, bi + 7)].map (fun p => f p.1 p.2) =
      [(j + 4, bi + 0), (j + 4, bi + 1), (j + 4, bi + 2), (j + 4, bi + 3)].map
        fun p => mem₀ (args.addrA p.2 p.1) := by
    simp only [List.map_cons, List.map_nil]
    rw [hp (bi + 4) (by omega) (by omega), hp (bi + 5) (by omega) (by omega),
      hp (bi + 6) (by omega) (by omega), hp (bi + 7) (by omega) (by omega)]
    rfl
  have hfirst : args.storesB mem [(j, bi + 4), (j, bi + 5), (j, bi + 6), (j, bi + 7)]
      ([(bi + 4, j), (bi + 5, j), (bi + 6, j), (bi + 7, j)].map fun p => mem₀ (args.addrA p.1 p.2)) =
        some mem₁ := h1
  refine ⟨mem₂, g₂, ?_, h5, (h3.trans h6).congr fun j' c => ?_⟩
  · rw [move64, h.loadsA ha (by simp; omega), h.loadsB (by simp; omega), hmoved]
    show (args.storesB mem _ _).bind _ = _
    rw [hfirst, Option.bind_some, h2.loadsA ha (by simp; omega)]
    exact h4
  · simp only [List.mem_cons, Prod.mk.injEq, List.not_mem_nil, or_false]
    apply or_congr
    · omega
    · omega

theorem parkLoop_spec (ha : args.Apart) {bi bj : ℕ} (hi : bi + 7 < args.N) (hj : bj + 7 < args.M)
    (h : View args mem₀ mem f) : ∃ mem' g, forRange bi (bi + 4) (park64 args bj) mem = some mem' ∧
      View args mem₀ mem' g ∧ Parked args mem₀ bi bj (bi + 4) f g := by
  obtain ⟨mem', h1, g, h2, h3⟩ := forRange_inv (park64 args bj)
    (fun i mem => ∃ g, View args mem₀ mem g ∧ Parked args mem₀ bi bj i f g) (show bi ≤ bi + 4 by omega)
    ⟨f, h, fun j c _ _ => ⟨by omega, by omega, fun _ => rfl⟩⟩ (by
      rintro i mem hlo hhi ⟨g, hv, hp⟩
      obtain ⟨mem', g', h1, h2, h3⟩ := park64_spec hv ha hj (show i + 4 < args.N by omega)
      refine ⟨mem', h1, g', h2, fun j c hj' hc' => ?_⟩
      obtain ⟨h4, h5, h6⟩ := hp j c hj' hc'
      obtain ⟨h7, h8, h9⟩ := h3 j c hj' hc'
      -- row `i` is final or parked now, and the other rows are as before
      refine ⟨fun hD => ?_, fun hD => ?_, fun hD => ?_⟩
      · by_cases hc : c = i
        · exact h7 (by omega)
        · rw [h9 (by omega), h4 (by omega)]
      · by_cases hc : c = i + 4
        · exact h8 (by omega)
        · rw [h9 (by omega), h5 (by omega)]
      · rw [h9 (by omega), h6 (by omega)])
  exact ⟨mem', g, h1, h2, h3⟩

theorem block64_spec (ha : args.Apart) (hM : args.M = 64) (hN : args.N = 64) :
    Transposes args mem₀ 8 (block64 args) := by
  intro k l mem f hk hl h
  obtain ⟨mem₁, g₁, h1, h2, h3⟩ := parkLoop_spec ha (show k * 8 + 7 < args.N by omega)
    (show l * 8 + 7 < args.M by omega) h
  obtain ⟨mem₂, g₂, h4, h5, h6⟩ := forRange_transposes (move64 args (k * 8))
    (fun j j' c => (l * 8 ≤ j' ∧ j' < j) ∧ (k * 8 + 4 ≤ c ∧ c < k * 8 + 8) ∨
      (l * 8 + 4 ≤ j' ∧ j' < j + 4) ∧ (k * 8 ≤ c ∧ c < k * 8 + 8))
    (show l * 8 ≤ l * 8 + 4 by omega) (by omega) h2 (by
      intro j mem g hlo hhi hv ht
      obtain ⟨mem', g', h7, h8, h9⟩ := move64_spec hv ha (show k * 8 + 7 < args.N by omega)
        (show j + 4 < args.M by omega) fun c hc1 hc2 => by
          -- the cells parked in row `j` have not been touched
          rw [(ht j c (by omega) (by omega)).2 (by omega)]
          exact (h3 j c (by omega) (by omega)).2.1 (by omega)
      exact ⟨mem', g', h7, h8, _, h9, by omega⟩)
  refine ⟨mem₂, g₂, ?_, h5, fun j c hj hc => ?_⟩
  · rw [block64, h1]
    exact h4
  · obtain ⟨h7, -, h8⟩ := h3 j c hj hc
    obtain ⟨h9, h10⟩ := h6 j c hj hc
    constructor
    · intro hD
      by_cases hq : (l * 8 ≤ j ∧ j < l * 8 + 4) ∧ (k * 8 ≤ c ∧ c < k * 8 + 4)
      · rw [h10 (by omega), h7 (by omega)]
      · exact h9 (by omega)
    · intro hD
      rw [h10 (by omega), h8 (by omega)]

end Blocks

/-! ## The whole matrix -/

section Whole

variable {args : Args} {mem₀ mem : Mem}

/-- The cells of `B` are the transpose of `A`, and nothing else has changed. -/
def IsTransposed (args : Args) (mem₀ mem : Mem) : Prop :=
  View args mem₀ mem fun j i => mem₀ (args.addrA i j)

/-- The loops over the blocks cover the matrix. -/
theorem blocks_spec {size : ℕ} {block : ℕ → ℕ → Mem → Option Mem} (hsize : 0 < size)
    (hb : Transposes args mem₀ size block) {f : ℕ → ℕ → Int32} (h : View args mem₀ mem f) :
    ∃ mem', blocks args size block mem = some mem' ∧ IsTransposed args mem₀ mem' := by
  obtain ⟨mem', h1, k, hk, g, h2, h3⟩ := forStep_inv 0 args.N
    (fun bi => forStep 0 args.M size (block bi))
    (fun bi mem => ∃ g, View args mem₀ mem g ∧
      ∀ j i, j < args.M → i < args.N → i < bi → g j i = mem₀ (args.addrA i j)) hsize
    ⟨f, h, fun j i _ _ hi => absurd hi (Nat.not_lt_zero i)⟩ (by
      rintro k mem hk ⟨f, hv, hf⟩
      rw [Nat.zero_add] at hk hf ⊢
      obtain ⟨mem', h1, l, hl, g, h2, h3⟩ := forStep_inv 0 args.M (block (k * size))
        (fun bj mem => ∃ g, View args mem₀ mem g ∧ ∀ j i, j < args.M → i < args.N →
          (i < k * size ∨ i < k * size + size ∧ j < bj) → g j i = mem₀ (args.addrA i j)) hsize
        ⟨f, hv, fun j i hj hi hD => hf j i hj hi (by omega)⟩ (by
          rintro l mem hl ⟨g, hv, hg⟩
          rw [Nat.zero_add] at hl hg ⊢
          obtain ⟨mem', g', h1, h2, h3⟩ := hb k l mem g hk hl hv
          refine ⟨mem', h1, g', h2, fun j i hj hi hD => ?_⟩
          obtain ⟨h4, h5⟩ := h3 j i hj hi
          by_cases hin : (l * size ≤ j ∧ j < l * size + size) ∧ (k * size ≤ i ∧ i < k * size + size)
          · exact h4 hin
          · rw [h5 hin]
            exact hg j i hj hi (by omega))
      rw [Nat.zero_add] at hl h3
      exact ⟨mem', h1, g, h2, fun j i hj hi hD => h3 j i hj hi (by omega)⟩)
  rw [Nat.zero_add] at hk h3
  refine ⟨mem', h1, fun j i hj hi => ?_, h2.frame⟩
  rw [h2.cells j i hj hi]
  exact h3 j i hj hi (by omega)

/-- No end of a block overflows in the loops that are run; the two square cases are far below. -/
structure BlocksFit (args : Args) : Prop where
  rows : args.N + 16 ≤ INT_MAX + 1
  cols : 0 < args.N → args.M + 16 ≤ INT_MAX + 1

/-- The loops of the general case cover the matrix, too. -/
theorem blocksAny_spec (ha : args.Apart) (hfit : BlocksFit args) {f : ℕ → ℕ → Int32} (h : View args mem₀ mem f) :
    ∃ mem', blocksAny args mem = some mem' ∧ IsTransposed args mem₀ mem' := by
  obtain ⟨mem', h1, g, h2, h3⟩ := tileLoop_inv (s := mem) (fun bi bi_end =>
      tileLoop 16 INT_MAX args.M fun bj bj_end =>
        forRange bi bi_end fun i => forRange bj bj_end (copyCell args i)) (by decide) hfit.rows
    (fun bi mem => ∃ g, View args mem₀ mem g ∧
      ∀ j i, j < args.M → i < args.N → i < bi → g j i = mem₀ (args.addrA i j))
    ⟨f, h, fun j i _ _ hi => absurd hi (Nat.not_lt_zero i)⟩ (by
      rintro bi bi_end mem hbi hN ⟨f, hv, hf⟩
      obtain ⟨mem', h1, g, h2, h3⟩ := tileLoop_inv (s := mem) (fun bj bj_end =>
          forRange bi bi_end fun i => forRange bj bj_end (copyCell args i)) (by decide) (hfit.cols (by omega))
        (fun bj mem => ∃ g, View args mem₀ mem g ∧ ∀ j i, j < args.M → i < args.N →
          (i < bi ∨ i < bi_end ∧ j < bj) → g j i = mem₀ (args.addrA i j))
        ⟨f, hv, fun j i hj hi hD => hf j i hj hi (by omega)⟩ (by
          rintro bj bj_end mem hbj hM ⟨g, hv, hg⟩
          obtain ⟨mem', g', h1, h2, h3⟩ := copyCells_spec ha hbi.le hN hbj.le hM hv
          refine ⟨mem', h1, g', h2, fun j i hj hi hD => ?_⟩
          obtain ⟨h4, h5⟩ := h3 j i hj hi
          by_cases hin : (bj ≤ j ∧ j < bj_end) ∧ (bi ≤ i ∧ i < bi_end)
          · exact h4 hin
          · rw [h5 hin]
            exact hg j i hj hi (by omega))
      exact ⟨mem', h1, g, h2, fun j i hj hi hD => h3 j i hj hi (Or.inr ⟨hD, hj⟩)⟩)
  refine ⟨mem', h1, fun j i hj hi => ?_, h2.frame⟩
  rw [h2.cells j i hj hi]
  exact h3 j i hj hi hi

theorem transposeSubmit_spec (ha : args.Apart) (hfit : BlocksFit args) (mem : Mem) :
    ∃ mem', transposeSubmit args mem = some mem' ∧ IsTransposed args mem mem' := by
  unfold transposeSubmit
  split_ifs with h32 h64
  · exact blocks_spec (by decide) (block32_spec ha h32.1 h32.2) (view_self args mem)
  · exact blocks_spec (by decide) (block64_spec ha h64.1 h64.2) (view_self args mem)
  · exact blocksAny_spec ha hfit (view_self args mem)

/-- The index or the end of a block overflows. -/
theorem transposeSubmit_overflow (hfit : ¬ BlocksFit args) (mem : Mem) : transposeSubmit args mem = none := by
  have hdvd : 16 ∣ INT_MAX + 1 := by decide
  have hmax : INT_MAX = 2147483647 := rfl
  have hlarge : INT_MAX + 1 < args.N + 16 ∨ 0 < args.N ∧ INT_MAX + 1 < args.M + 16 := by
    by_contra hc
    exact hfit ⟨by omega, fun hN => by omega⟩
  unfold transposeSubmit
  rw [if_neg (by omega), if_neg (by omega), blocksAny]
  by_cases hrows : INT_MAX + 1 < args.N + 16
  · exact tileLoop_overflow hdvd hrows
  · obtain ⟨hN, hcols⟩ := hlarge.resolve_left hrows
    exact tileLoop_eq_none hN fun bi_end mem => tileLoop_overflow hdvd hcols

theorem trans_spec (ha : args.Apart) (mem : Mem) :
    ∃ mem', trans args mem = some mem' ∧ IsTransposed args mem mem' := by
  obtain ⟨mem', g, h1, h2, h3⟩ := copyCells_spec ha (Nat.zero_le args.N) le_rfl (Nat.zero_le args.M) le_rfl
    (view_self args mem)
  refine ⟨mem', h1, fun j i hj hi => ?_, h2.frame⟩
  rw [h2.cells j i hj hi]
  exact (h3 j i hj hi).1 (by omega)

/-- Two transposes of the same memory are the same memory. -/
theorem IsTransposed.eq {mem' mem'' : Mem} (h : IsTransposed args mem mem') (h' : IsTransposed args mem mem'') :
    mem' = mem'' := by
  funext k
  by_cases hk : ∃ j i, j < args.M ∧ i < args.N ∧ k = args.addrB j i
  · obtain ⟨j, i, hj, hi, rfl⟩ := hk
    rw [h.cells j i hj hi, h'.cells j i hj hi]
  · have hout : ∀ j i, j < args.M → i < args.N → k ≠ args.addrB j i :=
      fun j i hj hi he => hk ⟨j, i, hj, hi, he⟩
    rw [h.frame k hout, h'.frame k hout]

theorem isTransposeRow_spec {mem' : Mem} (ha : args.Apart) (h : IsTransposed args mem mem') {i : ℕ}
    (hi : i < args.N) : ∀ k j, j + k = args.M → isTransposeRow args mem' i k j = some true
  | 0, _, _ => rfl
  | k + 1, j, hj => by
    rw [isTransposeRow, h.loadA ha hi (show j < args.M by omega), h.loadB (show j < args.M by omega) hi]
    show (if _ then _ else _) = _
    rw [if_neg (not_not.mpr rfl)]
    exact isTransposeRow_spec ha h hi k (j + 1) (by omega)

theorem isTranspose_spec {mem' : Mem} (ha : args.Apart) (h : IsTransposed args mem mem') :
    isTranspose args mem' = some 1 := by
  have hfrom : ∀ k i, i + k = args.N → isTransposeFrom args mem' k i = some true := by
    intro k
    induction k with
    | zero => exact fun _ _ => rfl
    | succ k ih =>
      intro i hi
      rw [isTransposeFrom, isTransposeRow_spec ha h (show i < args.N by omega) args.M 0 (Nat.zero_add _)]
      exact ih (i + 1) (by omega)
  rw [isTranspose, hfrom args.N 0 (Nat.zero_add _)]
  rfl

end Whole

/-- `transpose_submit` leaves the transpose of `A` in `B` and `A` as it was; so `trans` leaves the same memory, and
`is_transpose` returns 1. -/
def TransposesAll (args : Args) (mem : Mem) : Prop :=
  ∃ mem', transposeSubmit args mem = some mem' ∧
    (∀ i j, i < args.N → j < args.M → mem' (args.addrB j i) = mem (args.addrA i j)) ∧
    (∀ i j, i < args.N → j < args.M → mem' (args.addrA i j) = mem (args.addrA i j)) ∧
    trans args mem = some mem' ∧ isTranspose args mem' = some 1

/-- **The optimised transpose** is one, on each of its three paths, if and only if the end of no block overflows. -/
theorem transposeSubmit_iff (args : Args) (ha : args.Apart) (mem : Mem) :
    TransposesAll args mem ↔ BlocksFit args := by
  constructor
  · rintro ⟨mem', h, -⟩
    by_contra hfit
    rw [transposeSubmit_overflow hfit] at h
    cases h
  · intro hfit
    obtain ⟨mem', h1, h2⟩ := transposeSubmit_spec ha hfit mem
    obtain ⟨mem'', h3, h4⟩ := trans_spec ha mem
    refine ⟨mem', h1, fun i j hi hj => h2.cells j i hj hi, fun i j hi hj => h2.cellA ha hi hj, ?_,
      isTranspose_spec ha h2⟩
    rw [h3, h2.eq h4]

/-- 17 rows of 3 cells, with `B` behind `A`: two ragged blocks. -/
theorem transposeSubmit_iff_sample : ∃ mem', transposeSubmit ⟨3, 17, 0, 51⟩ (fun k => Int32.ofNat k) = some mem' ∧
    mem' 67 = 48 ∧ isTranspose ⟨3, 17, 0, 51⟩ mem' = some 1 := by
  obtain ⟨mem', h1, h2, -, -, h3⟩ := (transposeSubmit_iff ⟨3, 17, 0, 51⟩ (by decide) fun k => Int32.ofNat k).mpr
    ⟨by decide, fun _ => by decide⟩
  exact ⟨mem', h1, h2 16 0 (by decide) (by decide), h3⟩

/-- The largest `int` as the number of rows. -/
theorem last_block_overflows : ¬ TransposesAll ⟨0, INT_MAX, 0, 0⟩ fun _ => 0 := by
  rintro ⟨mem', h, -⟩
  have hfit : ¬ BlocksFit ⟨0, INT_MAX, 0, 0⟩ := fun hfit => absurd hfit.rows (by decide)
  rw [transposeSubmit_overflow hfit] at h
  cases h

end Csapp.Cache
