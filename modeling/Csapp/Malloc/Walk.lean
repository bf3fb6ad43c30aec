import Csapp.Malloc.Free

/-!
# Malloc.Walk — the walk over the heap, and the calls of `mem_sbrk` that it decides

`heapWalk` visits the blocks of a heap with the invariant (`heapWalk_eq`).  What `mm_malloc` and `mm_realloc` ask
`mem_sbrk` for is read off the walk and the last blocks of the heap; `MallocFits` and `ReallocFits` say, in the state
before the call, that none of these sums `mem_brk + incr` wraps.
-/

namespace Csapp.Malloc

open Csapp.Lib

/-- `get_size(header_ptr(bp))`. -/
def blockSize (s : State) (bp : ℕ) : ℕ := getSize s.mem (headerPtr bp)

/-- The block `bp` is free and has at least `allocSize` bytes. -/
def Fits (s : State) (allocSize bp : ℕ) : Prop :=
  getAlloc s.mem (headerPtr bp) = 0 ∧ allocSize ≤ blockSize s bp

instance (s : State) (allocSize bp : ℕ) : Decidable (Fits s allocSize bp) :=
  inferInstanceAs (Decidable (_ ∧ _))

/-- The size of the free block in front of the tail, as `do_mm_malloc` reads it; 0 if there is none. -/
def trailingFree (s : State) : ℕ :=
  if getPrevAlloc s.mem (headerPtr s.blockTail) = 0 then getSize s.mem (prevFooterPtr s.blockTail) else 0

/-- What the heap grows by for a request of `allocSize` bytes. -/
def growthOf (s : State) (allocSize : ℕ) : ℕ := max (allocSize - trailingFree s) minBlockSize

/-! ## The walk -/

section Walk

variable {s : State} {L K : List Block} {F : Fin 10 → List ℕ} {p : ℕ} {pa : Bool}

theorem Blocks.dropLast_iff {hi p : ℕ} {pa : Bool} {b : Block} (h : Blocks hi p pa L) :
    b ∈ L.dropLast ↔ b ∈ L ∧ 16 ≤ b.size := by
  obtain ⟨mid, ta, rfl, hS⟩ := h.exists_tail
  rw [List.dropLast_concat]
  constructor
  · exact fun hb => ⟨List.mem_append_left _ hb, (hS.mem_in hb).2⟩
  · rintro ⟨hb, h16⟩
    rcases List.mem_append.mp hb with hb | hb
    · exact hb
    · rw [List.mem_singleton.mp hb] at h16
      simp at h16

theorem heapWalkFrom_eq (hI : Inv s L F) (h : Blocks s.blockTail p pa K) :
    ∀ {fuel : ℕ}, (∀ b ∈ K, b ∈ L) → K.length ≤ fuel →
      heapWalkFrom s fuel p = some (K.dropLast.map Block.ptr) := by
  induction h with
  | tail pa =>
    intro fuel _ hf
    obtain ⟨f, rfl⟩ : ∃ f, fuel = f + 1 := ⟨fuel - 1, by simp at hf; omega⟩
    rw [heapWalkFrom, if_pos rfl]
    rfl
  | @cons p pa K size alloc h16 h8 hB ih =>
    intro fuel hL hf
    obtain ⟨f, rfl⟩ : ∃ f, fuel = f + 1 := ⟨fuel - 1, by simp at hf; omega⟩
    have hne : p ≠ s.blockTail := by have := hB.le; omega
    have hnext : nextBlock s.mem p = p + size :=
      hI.nextBlock_eq (b := ⟨p, size, pa, alloc⟩) (hL _ List.mem_cons_self)
    rw [heapWalkFrom, if_neg hne, hnext,
      ih (fun b hb => hL b (List.mem_cons_of_mem _ hb)) (by simpa using hf),
      List.dropLast_cons_of_ne_nil hB.ne_nil]
    rfl

/-- The head block, and the fuel that is left behind it. -/
theorem Inv.head_eq (hI : Inv s L F) :
    s.blockHead ≠ s.blockTail ∧ getSize s.mem (headerPtr s.blockHead) = 8 ∧
      getAlloc s.mem (headerPtr s.blockHead) = 1 ∧
      nextBlock s.mem s.blockHead = s.arena.memStartBrk + 16 ∧ L.length + 1 ≤ walkFuel := by
  have h8 : SizeOk 8 := ⟨rfl, by omega⟩
  have hsz := getSize_of_load h8 hI.headWord
  have hle := hI.geo.blocks.le
  have hlen := hI.geo.blocks.length_le
  have htop := hI.geo.top
  refine ⟨?_, hsz, getAlloc_of_load h8 hI.headWord, ?_, ?_⟩
  · rw [hI.head]; omega
  · rw [nextBlock, hsz, hI.head]
    have hstart := s.arena.start_top
    unfold maxHeap at hstart
    exact Nat.mod_eq_of_lt (by omega)
  · unfold walkFuel minBlockSize; omega

theorem heapWalk_eq (hI : Inv s L F) :
    heapWalk s = some (s.blockHead :: L.dropLast.map Block.ptr) := by
  obtain ⟨h1, h2, h3, h4, h5⟩ := hI.head_eq
  obtain ⟨f, hf⟩ : ∃ f, walkFuel = f + 1 := ⟨walkFuel - 1, by omega⟩
  rw [heapWalk, hf, heapWalkFrom, if_neg h1, h4,
    heapWalkFrom_eq hI hI.geo.blocks (fun _ => id) (by omega)]
  rfl

/-- The blocks of the walk that fit are the free blocks that are large enough. -/
theorem Inv.fits_walk (hI : Inv s L F) (allocSize bp : ℕ) :
    (bp ∈ s.blockHead :: L.dropLast.map Block.ptr ∧ Fits s allocSize bp) ↔
      ∃ b ∈ L, b.alloc = false ∧ b.ptr = bp ∧ allocSize ≤ b.size := by
  have hfits : ∀ b ∈ L, Fits s allocSize b.ptr ↔ b.alloc = false ∧ allocSize ≤ b.size := by
    intro b hb
    rw [Fits, blockSize, hI.getAlloc_eq hb, hI.getSize_eq hb]
    cases b.alloc <;> simp
  constructor
  · rintro ⟨hbp, hfit⟩
    rcases List.mem_cons.mp hbp with rfl | hbp
    · -- the head block is in use
      have hhead := hfit.1
      rw [hI.head_eq.2.2.1] at hhead
      cases hhead
    · obtain ⟨b, hb, rfl⟩ := List.mem_map.mp hbp
      have hbL := (hI.geo.blocks.dropLast_iff.mp hb).1
      obtain ⟨hbf, hle⟩ := (hfits b hbL).mp hfit
      exact ⟨b, hbL, hbf, rfl, hle⟩
  · rintro ⟨b, hb, hbf, rfl, hle⟩
    have hdrop := hI.geo.blocks.dropLast_iff.mpr ⟨hb, hI.geo.blocks.free_size hb hbf⟩
    exact ⟨List.mem_cons_of_mem _ (List.mem_map_of_mem hdrop), (hfits b hb).mpr ⟨hbf, hle⟩⟩

end Walk

/-! ## The free block in front of the tail -/

section Trailing

variable {s : State} {L P : List Block} {F : Fin 10 → List ℕ} {ta : Bool} {a : ℕ}

/-- Only the last block ends at the tail. -/
theorem Inv.ends_at_tail (hI : Inv s (P ++ [⟨s.blockTail, 0, ta, true⟩]) F) {b : Block}
    (hb : b ∈ P ++ [⟨s.blockTail, 0, ta, true⟩]) (hbf : b.alloc = false) (he : b.ptr + b.size = s.blockTail) :
    ta = false ∧ trailingFree s = b.size := by
  obtain ⟨q, qa, hS, hB⟩ := hI.geo.blocks.split (List.cons_ne_nil _ _)
  obtain rfl : s.blockTail = q := hB.head_eq.1
  obtain rfl : ta = qa := hB.head_eq.2
  have hbP : b ∈ P := by
    rcases List.mem_append.mp hb with hb | hb
    · exact hb
    · rw [List.mem_singleton.mp hb] at hbf
      cases hbf
  rcases List.eq_nil_or_concat' P with rfl | ⟨P', p, rfl⟩
  · exact absurd hbP List.not_mem_nil
  · obtain ⟨hpa, hpe⟩ := hS.last
    have hpm : p ∈ P' ++ [p] ++ [⟨s.blockTail, 0, ta, true⟩] := by simp
    have hb16 := hI.geo.blocks.free_size hb hbf
    have hp16 := (hS.mem_in (b := p) (by simp)).2
    obtain rfl : b = p := by
      rcases hI.geo.blocks.apart hb hpm with h | h | h
      · exact h
      · omega
      · omega
    refine ⟨hpa.symm.trans hbf, ?_⟩
    have hpv : getPrevAlloc s.mem (headerPtr s.blockTail) = ta.toNat :=
      hI.getPrevAlloc_eq (b := ⟨s.blockTail, 0, ta, true⟩) (by simp)
    have hfoot := hI.getSize_footer hpm hbf
    rw [hpe] at hfoot
    rw [trailingFree, hpv, ← hpa, hbf]
    exact hfoot

/-- What `trailingFree` reads. -/
theorem Inv.trailingFree_cases (hI : Inv s L F) :
    (trailingFree s = 0 ∧ ∀ b ∈ L, b.alloc = false → b.ptr + b.size ≠ s.blockTail) ∨
      ∃ b ∈ L, b.alloc = false ∧ b.ptr + b.size = s.blockTail ∧ trailingFree s = b.size := by
  obtain ⟨P, ta, rfl, hS⟩ := hI.geo.blocks.exists_tail
  cases ta with
  | true =>
    have hpv : getPrevAlloc s.mem (headerPtr s.blockTail) = 1 :=
      hI.getPrevAlloc_eq (b := ⟨s.blockTail, 0, true, true⟩) (by simp)
    refine Or.inl ⟨by rw [trailingFree, hpv, if_neg one_ne_zero], fun b hb hbf he => ?_⟩
    exact absurd (hI.ends_at_tail hb hbf he).1 (by simp)
  | false =>
    rcases List.eq_nil_or_concat' P with rfl | ⟨P', p, rfl⟩
    · exact absurd rfl hS.ne_nil
    · obtain ⟨hpf, hpe⟩ := hS.last
      have hpm : p ∈ P' ++ [p] ++ [⟨s.blockTail, 0, false, true⟩] := by simp
      exact Or.inr ⟨p, hpm, hpf, hpe, (hI.ends_at_tail hpm hpf hpe).2⟩

/-- What the code computes for `extend_size` when nothing fits. -/
theorem Inv.extendSize_eq (hI : Inv s L F) (h32 : a < 2 ^ 32)
    (hno : ∀ b ∈ L, b.alloc = false → b.size < a) (hpos : 0 < a) :
    trailingFree s < a ∧ (if getPrevAlloc s.mem (headerPtr s.blockTail) = 0 then
      subSz a (getSize s.mem (prevFooterPtr s.blockTail)) else a) = a - trailingFree s := by
  have hlt : trailingFree s < a := by
    rcases hI.trailingFree_cases with ⟨h1, -⟩ | ⟨b, hb, hbf, -, hsz⟩
    · omega
    · rw [hsz]
      exact hno b hb hbf
  refine ⟨hlt, ?_⟩
  unfold trailingFree subSz at *
  split_ifs at * with h
  · omega
  · rfl

end Trailing

/-! ## Sums that do not wrap -/

/-- The walk finds a free block of `allocSize` bytes. -/
def SomeFits (s : State) (allocSize : ℕ) : Prop := ∃ bps ∈ heapWalk s, ∃ bp ∈ bps, Fits s allocSize bp

instance (s : State) (allocSize : ℕ) : Decidable (SomeFits s allocSize) :=
  inferInstanceAs (Decidable (∃ bps ∈ heapWalk s, ∃ bp ∈ bps, Fits s allocSize bp))

/-- `mm_malloc(n)` calls `mem_sbrk` with no sum that wraps. -/
def MallocFits (s : State) (n : ℕ) : Prop :=
  n = 0 ∨ SomeFits s (allocSizeOf n) ∨ SumFits s (growthOf s (allocSizeOf n))

instance (s : State) (n : ℕ) : Decidable (MallocFits s n) := inferInstanceAs (Decidable (_ ∨ _))

/-- `merged_size` of `do_mm_realloc`. -/
def mergedSize (s : State) (p : ℕ) : ℕ :=
  addSz (blockSize s p) (blockSize s (nextBlock s.mem p))

/-- `p` is the last block, or only a free block stands behind it. -/
def AtEnd (s : State) (p : ℕ) : Prop :=
  nextBlock s.mem p = s.blockTail ∨
    (getAlloc s.mem (headerPtr (nextBlock s.mem p)) = 0 ∧ nextBlock s.mem (nextBlock s.mem p) = s.blockTail)

instance (s : State) (p : ℕ) : Decidable (AtEnd s p) := inferInstanceAs (Decidable (_ ∨ _))

/-- The bytes that `p` has with a free block behind it. -/
def reachSize (s : State) (p : ℕ) : ℕ :=
  if getAlloc s.mem (headerPtr (nextBlock s.mem p)) = 0 then mergedSize s p else blockSize s p

/-- `mm_realloc(p, n)` calls `mem_sbrk` with no sum that wraps: at the end of the heap it asks for what the block lacks,
elsewhere it allocates a new one if the block is too small. -/
def ReallocFits (s : State) (p n : ℕ) : Prop :=
  if p = null then MallocFits s n
  else if AtEnd s p then
    n = 0 ∨ allocSizeOf n ≤ mergedSize s p ∨ SumFits s (max (allocSizeOf n - mergedSize s p) minBlockSize)
  else n = 0 ∨ allocSizeOf n ≤ reachSize s p ∨ MallocFits s n

instance (s : State) (p n : ℕ) : Decidable (ReallocFits s p n) := inferInstanceAs (Decidable (ite _ _ _))

section Fits

variable {s s' : State} {L L' : List Block} {F F' : Fin 10 → List ℕ} {n p : ℕ}

theorem SumFits.of_exact (h : s.arena.exactBrk = true) (incr : ℕ) : SumFits s incr := Or.inr (brkSum_of_exact h incr)

/-- Where `mem_sbrk` does not compute with a 4-byte pointer no sum wraps. -/
theorem MallocFits.of_exact (h : s.arena.exactBrk = true) (n : ℕ) : MallocFits s n :=
  Or.inr (Or.inr (SumFits.of_exact h _))

theorem ReallocFits.of_exact (h : s.arena.exactBrk = true) (p n : ℕ) : ReallocFits s p n := by
  unfold ReallocFits
  split_ifs
  · exact MallocFits.of_exact h n
  · exact Or.inr (Or.inr (SumFits.of_exact h _))
  · exact Or.inr (Or.inr (MallocFits.of_exact h n))

theorem ReallocFits.atEnd (h : ReallocFits s p n) (hp : p ≠ null) (hn : n ≠ 0) (hend : AtEnd s p) :
    allocSizeOf n ≤ mergedSize s p ∨ SumFits s (max (allocSizeOf n - mergedSize s p) minBlockSize) := by
  unfold ReallocFits at h
  rw [if_neg hp, if_pos hend] at h
  exact h.resolve_left hn

theorem ReallocFits.elsewhere (h : ReallocFits s p n) (hp : p ≠ null) (hn : n ≠ 0) (hend : ¬ AtEnd s p)
    (hlt : reachSize s p < allocSizeOf n) : MallocFits s n := by
  unfold ReallocFits at h
  rw [if_neg hp, if_neg hend] at h
  exact (h.resolve_left hn).resolve_left (not_le.mpr hlt)

/-- A request that does not wrap at the end of the arena wraps nowhere. -/
theorem Inv.sumFits_of_lt (hI : Inv s L F) {a incr : ℕ} (h : s.memMaxAddr + a < 2 ^ 32) (hle : incr ≤ a) :
    SumFits s incr := by
  have htop := hI.geo.top
  have hbrk := hI.brk
  have hmax : s.memMaxAddr = s.arena.memStartBrk + maxHeap := rfl
  exact Or.inr (brkSum_of_lt (by omega))

theorem Inv.mallocFits_of_lt (hI : Inv s L F) (h : s.memMaxAddr + allocSizeOf n < 2 ^ 32) : MallocFits s n := by
  have h16 := (allocSizeOf_spec n).1
  exact Or.inr (Or.inr (hI.sumFits_of_lt h (max_le (Nat.sub_le _ _) h16)))

theorem Inv.reallocFits_of_lt (hI : Inv s L F) (h : s.memMaxAddr + allocSizeOf n < 2 ^ 32) : ReallocFits s p n := by
  have h16 := (allocSizeOf_spec n).1
  unfold ReallocFits
  split_ifs
  · exact hI.mallocFits_of_lt h
  · exact Or.inr (Or.inr (hI.sumFits_of_lt h (max_le (Nat.sub_le _ _) h16)))
  · exact Or.inr (Or.inr (hI.mallocFits_of_lt h))

theorem Inv.someFits_iff (hI : Inv s L F) (a : ℕ) : SomeFits s a ↔ ∃ b ∈ L, b.alloc = false ∧ a ≤ b.size := by
  constructor
  · rintro ⟨bps, hbps, bp, hbp, hfit⟩
    rw [heapWalk_eq hI, Option.mem_some_iff] at hbps
    rw [← hbps] at hbp
    obtain ⟨b, hb, hbf, -, hle⟩ := (hI.fits_walk a bp).mp ⟨hbp, hfit⟩
    exact ⟨b, hb, hbf, hle⟩
  · rintro ⟨b, hb, hbf, hle⟩
    obtain ⟨hbp, hfit⟩ := (hI.fits_walk a b.ptr).mpr ⟨b, hb, hbf, rfl, hle⟩
    exact ⟨_, heapWalk_eq hI, b.ptr, hbp, hfit⟩

/-- When nothing fits, what `mm_malloc` asks for does not wrap. -/
theorem Inv.growthFits (hI : Inv s L F) (h : MallocFits s n) (hn : n ≠ 0)
    (hno : ∀ b ∈ L, b.alloc = false → b.size < allocSizeOf n) : SumFits s (growthOf s (allocSizeOf n)) := by
  rcases h with h | h | h
  · exact absurd h hn
  · obtain ⟨b, hb, hbf, hle⟩ := (hI.someFits_iff _).mp h
    exact absurd hle (not_le.mpr (hno b hb hbf))
  · exact h

/-- `mem_sbrk` is asked for the same when a free block has gone that is neither large enough nor the last one. -/
theorem Inv.mallocFits_congr (hI : Inv s L F) (hI' : Inv s' L' F') (ha : s'.arena = s.arena)
    (ht : s'.blockTail = s.blockTail) (hsub : ∀ c ∈ L', c.alloc = false → c ∈ L)
    (hkeep : ∀ c ∈ L, c.alloc = false → c ∈ L' ∨ (c.size < allocSizeOf n ∧ c.ptr + c.size ≠ s.blockTail))
    (h : MallocFits s n) : MallocFits s' n := by
  have htrail : trailingFree s' = trailingFree s := by
    rcases hI'.trailingFree_cases with ⟨h0, hno⟩ | ⟨c, hc, hcf, hce, hsz⟩
    · rcases hI.trailingFree_cases with ⟨h0', -⟩ | ⟨c, hc, hcf, hce, -⟩
      · rw [h0, h0']
      · rcases hkeep c hc hcf with hc' | ⟨-, hne⟩
        · exact absurd (hce.trans ht.symm) (hno c hc' hcf)
        · exact absurd hce hne
    · obtain ⟨P, ta, rfl, -⟩ := hI.geo.blocks.exists_tail
      rw [hsz, (hI.ends_at_tail (hsub c hc hcf) hcf (hce.trans ht)).2]
  have hbrk : s'.memBrk = s.memBrk := by rw [hI'.brk, hI.brk, ht]
  rcases h with h | h | h
  · exact Or.inl h
  · obtain ⟨c, hc, hcf, hle⟩ := (hI.someFits_iff _).mp h
    rcases hkeep c hc hcf with hc' | ⟨hlt, -⟩
    · exact Or.inr (Or.inl ((hI'.someFits_iff _).mpr ⟨c, hc', hcf, hle⟩))
    · exact absurd hle (not_le.mpr hlt)
  · unfold SumFits growthOf State.brkSum at h
    unfold MallocFits SumFits growthOf State.brkSum
    rw [htrail, ha, hbrk]
    exact Or.inr (Or.inr h)

end Fits

end Csapp.Malloc
