import Csapp.Malloc.Safety

/-!
# Malloc.BestFit — the segregated best fit is the best fit of the heap

`implicit_find_best_fit`, the search of the implicit variant, scans all blocks of the heap;
`segregated_find_best_fit` stops at the first size class that has a fit.  In every reachable heap both find
a smallest free block that is large enough (`bestFit_agrees`).
-/

namespace Csapp.Malloc

open Csapp.Lib

/-- The loop of `implicit_find_best_fit` from `bp` on. -/
def implicitBestFitFrom (s : State) (allocSize : ℕ) : ℕ → ℕ → ℕ → ℕ → Option ℕ
  | 0, _, _, _ => none
  | fuel + 1, bp, bestBp, bestSize =>
    if bp = s.blockTail then some bestBp
    else
      let size := getSize s.mem (headerPtr bp)
      if getAlloc s.mem (headerPtr bp) = 0 ∧ allocSize ≤ size ∧ size < bestSize then
        implicitBestFitFrom s allocSize fuel (nextBlock s.mem bp) bp size
      else implicitBestFitFrom s allocSize fuel (nextBlock s.mem bp) bestBp bestSize

def implicitFindBestFit (s : State) (allocSize : ℕ) : Option ℕ :=
  implicitBestFitFrom s allocSize walkFuel (nextBlock s.mem s.blockHead) null sizeMax

/-! ## The scan of the heap -/

section Scan

variable {s : State} {L K : List Block} {F : Fin 10 → List ℕ} {p : ℕ} {pa : Bool} {allocSize : ℕ}

/-- The loop visits the blocks up to the tail. -/
theorem implicitBestFitFrom_eq (hI : Inv s L F) (h : Blocks s.blockTail p pa K) (allocSize : ℕ) :
    ∀ {fuel : ℕ} (bestBp bestSize : ℕ), (∀ b ∈ K, b ∈ L) → K.length ≤ fuel →
      implicitBestFitFrom s allocSize fuel p bestBp bestSize =
        some (bestScan (fun bp => decide (Fits s allocSize bp)) (blockSize s) (K.dropLast.map Block.ptr)
          bestBp bestSize) := by
  induction h with
  | tail pa =>
    intro fuel bestBp bestSize _ hf
    obtain ⟨f, rfl⟩ : ∃ f, fuel = f + 1 := ⟨fuel - 1, by simp at hf; omega⟩
    rw [implicitBestFitFrom, if_pos rfl]
    rfl
  | @cons p pa K size alloc h16 h8 hB ih =>
    intro fuel bestBp bestSize hL hf
    obtain ⟨f, rfl⟩ : ∃ f, fuel = f + 1 := ⟨fuel - 1, by simp at hf; omega⟩
    have hne : p ≠ s.blockTail := by
      have := hB.le
      omega
    have hnext : nextBlock s.mem p = p + size :=
      hI.nextBlock_eq (b := ⟨p, size, pa, alloc⟩) (hL _ List.mem_cons_self)
    have hK : ∀ b ∈ K, b ∈ L := fun b hb => hL b (List.mem_cons_of_mem _ hb)
    have hf' : K.length ≤ f := Nat.le_of_succ_le_succ hf
    rw [implicitBestFitFrom, if_neg hne, hnext, List.dropLast_cons_of_ne_nil hB.ne_nil, List.map_cons, bestScan]
    by_cases hfit : getAlloc s.mem (headerPtr p) = 0 ∧ allocSize ≤ getSize s.mem (headerPtr p) ∧
        getSize s.mem (headerPtr p) < bestSize
    · rw [if_pos hfit, if_pos ⟨decide_eq_true ⟨hfit.1, hfit.2.1⟩, hfit.2.2⟩]
      exact ih _ _ hK hf'
    · have hscan : ¬ (decide (Fits s allocSize p) = true ∧ blockSize s p < bestSize) := by
        rintro ⟨h1, h2⟩
        obtain ⟨h3, h4⟩ := of_decide_eq_true h1
        exact hfit ⟨h3, h4, h2⟩
      rw [if_neg hfit, if_neg hscan]
      exact ih _ _ hK hf'

end Scan

/-! ## Both searches -/

/-- `r` is a smallest of the blocks `bps` that fit, or `NULL` if none does. -/
def Smallest (s : State) (bps : List ℕ) (allocSize r : ℕ) : Prop :=
  (r = null ∧ ∀ bp ∈ bps, ¬ Fits s allocSize bp) ∨
    (r ≠ null ∧ r ∈ bps ∧ Fits s allocSize r ∧
      ∀ bp ∈ bps, Fits s allocSize bp → blockSize s r ≤ blockSize s bp)

section Searches

variable {s : State} {L : List Block} {F : Fin 10 → List ℕ} {bps : List ℕ} {allocSize r r' : ℕ}

/-- Two smallest fits have one size. -/
theorem Smallest.agree (h : Smallest s bps allocSize r) (h' : Smallest s bps allocSize r') :
    (r = null ↔ r' = null) ∧ (r ≠ null → blockSize s r = blockSize s r') := by
  rcases h with ⟨h1, h2⟩ | ⟨h1, h2, h3, h4⟩ <;> rcases h' with ⟨h5, h6⟩ | ⟨h5, h6, h7, h8⟩
  · exact ⟨iff_of_true h1 h5, fun hne => absurd h1 hne⟩
  · exact absurd h7 (h2 r' h6)
  · exact absurd h3 (h6 r h2)
  · exact ⟨iff_of_false h1 h5, fun _ => le_antisymm (h4 r' h6 h7) (h8 r h2 h3)⟩

theorem segregated_smallest (hI : Inv s L F) (h16 : minBlockSize ≤ allocSize) :
    ∃ r, segregatedFindBestFit s.arena.segregatedFreeLists s.mem allocSize = some r ∧
      Smallest s (s.blockHead :: L.dropLast.map Block.ptr) allocSize r := by
  obtain ⟨r, h1, h2⟩ := segregatedFindBestFit_spec hI.toRep h16
  refine ⟨r, h1, ?_⟩
  rcases h2 with ⟨h3, h4⟩ | ⟨h3, b, hb, hbf, rfl, hle, hmin⟩
  · refine Or.inl ⟨h3, fun bp hbp hfit => ?_⟩
    obtain ⟨b, hb, hbf, -, hle⟩ := (hI.fits_walk allocSize bp).mp ⟨hbp, hfit⟩
    exact absurd hle (not_le.mpr (h4 b hb hbf))
  · obtain ⟨hmem, hfit⟩ := (hI.fits_walk allocSize b.ptr).mpr ⟨b, hb, hbf, rfl, hle⟩
    refine Or.inr ⟨h3, hmem, hfit, fun bp hbp hbpfit => ?_⟩
    obtain ⟨c, hc, hcf, rfl, hcle⟩ := (hI.fits_walk allocSize bp).mp ⟨hbp, hbpfit⟩
    rw [blockSize, blockSize, hI.getSize_eq hb, hI.getSize_eq hc]
    exact hmin c hc hcf hcle

theorem implicit_smallest (hI : Inv s L F) (allocSize : ℕ) :
    ∃ r, implicitFindBestFit s allocSize = some r ∧
      Smallest s (s.blockHead :: L.dropLast.map Block.ptr) allocSize r := by
  obtain ⟨-, -, -, hnext, hlen⟩ := hI.head_eq
  have hscan := implicitBestFitFrom_eq hI hI.geo.blocks allocSize null sizeMax (fun _ => id)
    (show L.length ≤ walkFuel by omega)
  refine ⟨_, by rw [implicitFindBestFit, hnext, hscan], ?_⟩
  have hhead : ¬ Fits s allocSize s.blockHead := by
    rintro ⟨h, -⟩
    rw [hI.head_eq.2.2.1] at h
    cases h
  have hcons : ∀ bp, Fits s allocSize bp → bp ∈ s.blockHead :: L.dropLast.map Block.ptr →
      bp ∈ L.dropLast.map Block.ptr := by
    intro bp hfit hbp
    rcases List.mem_cons.mp hbp with rfl | hbp
    · exact absurd hfit hhead
    · exact hbp
  rcases bestScan_cases (fun bp => decide (Fits s allocSize bp)) (blockSize s)
    (L.dropLast.map Block.ptr) null sizeMax with ⟨h1, h2⟩ | h
  · -- sizes are below `SIZE_MAX`
    refine Or.inl ⟨h1, fun bp hbp hfit => ?_⟩
    have hmax : sizeMax ≤ blockSize s bp := h2 bp (hcons bp hfit hbp) (decide_eq_true hfit)
    have hsize : blockSize s bp ≤ 0xFFFFFFF8 := Nat.and_le_right
    unfold sizeMax at hmax
    omega
  · have hmem := List.mem_cons_of_mem s.blockHead h.mem
    have hfit := of_decide_eq_true h.fit
    refine Or.inr ⟨?_, hmem, hfit, fun bp hbp hbpfit => h.le bp (hcons bp hbpfit hbp) (decide_eq_true hbpfit)⟩
    obtain ⟨b, hb, -, hptr, -⟩ := (hI.fits_walk allocSize _).mp ⟨hmem, hfit⟩
    rw [← hptr]
    have := hI.geo.ptr_pos hb
    unfold null
    omega

end Searches

/-- The segregated best fit is the global best fit: it returns `NULL` exactly when no free block of the heap is large
enough, and otherwise a smallest one that is; the search over all blocks finds a block of the same size. -/
def BestFitAgrees (A : Arena) (s : State) (allocSize : ℕ) : Prop :=
  ∃ bps r r', heapWalk s = some bps ∧
    segregatedFindBestFit A.segregatedFreeLists s.mem allocSize = some r ∧
    implicitFindBestFit s allocSize = some r' ∧
    (r = null ↔ ∀ bp ∈ bps, ¬ Fits s allocSize bp) ∧
    (r ≠ null → r ∈ bps ∧ Fits s allocSize r ∧
      ∀ bp ∈ bps, Fits s allocSize bp → blockSize s r ≤ blockSize s bp) ∧
    (r = null ↔ r' = null) ∧ (r ≠ null → blockSize s r = blockSize s r')

/-- **Both searches agree** in every run in which no sum wraps. -/
theorem bestFit_agrees (A : Arena) (w : World) (hw : (safeSystem A).Reach w) (allocSize : ℕ)
    (h16 : minBlockSize ≤ allocSize) : BestFitAgrees A w.st allocSize := by
  obtain ⟨rfl, L, F, hI, -⟩ := (safeSystem_invariant A).reach hw
  obtain ⟨r, h1, h2⟩ := segregated_smallest hI h16
  obtain ⟨r', h3, h4⟩ := implicit_smallest hI allocSize
  refine ⟨_, r, r', heapWalk_eq hI, h1, h3, ?_, ?_, h2.agree h4⟩
  · rcases h2 with ⟨h5, h6⟩ | ⟨h5, h6, h7, -⟩
    · exact iff_of_true h5 h6
    · exact iff_of_false h5 fun hno => hno r h6 h7
  · intro hr
    rcases h2 with ⟨h5, -⟩ | ⟨-, h6⟩
    · exact absurd h5 hr
    · exact h6

/-- After `sampleRun` both searches find the freed block for 40 bytes. -/
theorem bestFit_agrees_sample : ∃ w, Sampled w ∧ BestFitAgrees sampleArena w.st 40 ∧
    segregatedFindBestFit sampleArena.segregatedFreeLists w.st.mem 40 = some 4216 := by
  obtain ⟨w, hw, hQ, ⟨hsize, hused⟩, -⟩ := sampleRun_reach
  have hagrees := bestFit_agrees sampleArena w hw 40 (by decide)
  obtain ⟨-, hwalk, hfree, -, -⟩ := id hQ
  obtain ⟨bps, r, r', hbps, hfind, -, hnull, hfit, -, -⟩ := id hagrees
  rw [hwalk, Option.some.injEq] at hbps
  subst hbps
  have hr : r ≠ null := fun h => hnull.mp h 4216 (by decide) ⟨hfree, by rw [hsize]; decide⟩
  obtain ⟨hmem, ⟨halloc, -⟩, -⟩ := hfit hr
  have hptr : r = 4216 := by
    by_contra hne
    refine hused r ?_ halloc
    simp only [List.mem_cons, List.not_mem_nil, or_false] at hmem ⊢
    omega
  exact ⟨w, hQ, hagrees, hptr ▸ hfind⟩

/-- When the client has written over the first list head, the search over the lists misses the free block. -/
theorem bestFit_wrap : ∃ w, (mmSystem wrapArena).Reach w ∧ ¬ BestFitAgrees wrapArena w.st 16 := by
  obtain ⟨w, hw, hseg, himp⟩ := System.Reach.of_attempt (S := mmSystem wrapArena) (wrapRun ++ wrapWrites)
    (Q := fun w => segregatedFindBestFit wrapArena.segregatedFreeLists w.st.mem 16 = some null ∧
      implicitFindBestFit w.st 16 = some 0xF6000018) (startWorld_init _) (by decide +kernel)
  refine ⟨w, hw, ?_⟩
  rintro ⟨bps, r, r', -, h1, h2, -, -, hnull, -⟩
  rw [hseg, Option.some.injEq] at h1
  rw [himp, Option.some.injEq] at h2
  have h := hnull.mp h1.symm
  rw [← h2] at h
  exact absurd h (by decide)

end Csapp.Malloc
