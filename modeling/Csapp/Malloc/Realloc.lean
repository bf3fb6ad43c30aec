import Csapp.Malloc.Alloc

/-!
# Malloc.Realloc — `mm_realloc`

One specification for each step of `do_mm_realloc`: extending the heap behind the block, absorbing the
free block behind it, cutting off the rest, and moving.  `mmRealloc_spec` follows the code through
them; on every path the first bytes of the payload are those of the old block.
-/

namespace Csapp.Malloc

open Csapp.Lib

section Steps

variable {s : State} {P R : List Block} {F : Fin 10 → List ℕ} {b n : Block} {allocSize : ℕ}

/-- Only the tail has the address of the tail. -/
theorem Blocks.tail_of_ptr {hi p : ℕ} {pa : Bool} (h : Blocks hi p pa (n :: R)) (hn : n.ptr = hi) :
    n = ⟨hi, 0, pa, true⟩ ∧ R = [] := by
  cases h with
  | tail => exact ⟨rfl, rfl⟩
  | cons size alloc h16 _ h' =>
    have := h'.le
    simp only at hn
    omega

/-- A free block is not the last. -/
theorem Blocks.behind_free {hi p : ℕ} {pa : Bool} (h : Blocks hi p pa (n :: R))
    (hnf : n.alloc = false) : ∃ t R', R = t :: R' := by
  cases h with
  | tail => simp at hnf
  | cons size alloc _ _ h' => exact List.exists_cons_of_ne_nil h'.ne_nil

/-- A block in use, its successor, and what the code reads there. -/
theorem Inv.next_eq (hI : Inv s (P ++ b :: n :: R) F) :
    nextBlock s.mem b.ptr = n.ptr ∧ n.prevAlloc = b.alloc ∧
      Blocks s.blockTail n.ptr n.prevAlloc (n :: R) := by
  obtain ⟨q, qa, -, hB⟩ := hI.geo.blocks.split (List.cons_ne_nil _ _)
  obtain ⟨-, -, -, -, hBn⟩ := hB.uncons
  obtain ⟨h1, h2⟩ := hBn.head_eq
  refine ⟨by rw [hI.nextBlock_eq (by simp), h1], h2, ?_⟩
  rw [h1, h2]
  exact hBn

/-- What `AtEnd` reads. -/
theorem Inv.atEnd_iff (hI : Inv s (P ++ b :: n :: R) F) : AtEnd s b.ptr ↔
    n.ptr = s.blockTail ∨ (n.alloc = false ∧ n.ptr + n.size = s.blockTail) := by
  have hn : n ∈ P ++ b :: n :: R := by simp
  rw [AtEnd, hI.next_eq.1, hI.getAlloc_eq hn, hI.nextBlock_eq hn]
  cases n.alloc <;> simp

/-- The sum in `do_mm_realloc` does not wrap. -/
theorem Inv.mergedSize_eq (hI : Inv s (P ++ b :: n :: R) F) : mergedSize s b.ptr = b.size + n.size := by
  obtain ⟨hnext, -, hBn⟩ := hI.next_eq
  have hb : b ∈ P ++ b :: n :: R := by simp
  have hn : n ∈ P ++ b :: n :: R := by simp
  rw [mergedSize, hnext, blockSize, blockSize, hI.getSize_eq hb, hI.getSize_eq hn]
  refine Nat.mod_eq_of_lt ?_
  have h1 := (hBn.mem_in (b := n) (by simp)).top; have h2 := hI.nextBlock_eq hb
  have := hI.geo.top; have := s.arena.start_top
  omega

theorem Inv.reachSize_eq (hI : Inv s (P ++ b :: n :: R) F) :
    reachSize s b.ptr = if n.alloc then b.size else b.size + n.size := by
  rw [reachSize, hI.next_eq.1, hI.getAlloc_eq (b := n) (by simp), hI.mergedSize_eq, blockSize,
    hI.getSize_eq (b := b) (by simp)]
  cases n.alloc <;> rfl

/-- The heap after the first step: only what stands behind `b` has changed.  Either nothing has, and `b` is too small
only where the heap does not end behind it; or the block behind `b` is free and large enough. -/
def Extended (s s' : State) (P : List Block) (b n : Block) (R : List Block) (allocSize : ℕ) : Prop :=
  ∃ n' R' F', Inv s' (P ++ b :: n' :: R') F' ∧ n'.ptr = n.ptr ∧ s'.arena = s.arena ∧
    (∀ p u, Used (n' :: R') p u ↔ Used (n :: R) p u) ∧ Keeps (P ++ b :: n :: R) s.mem s'.mem ∧
    ((s' = s ∧ (AtEnd s b.ptr → allocSize ≤ mergedSize s b.ptr)) ∨
      (n'.alloc = false ∧ allocSize ≤ b.size + n'.size))

/-- `extend_heap` when at most a free block stands between `b` and the tail. -/
theorem extendHeap_behind {size : ℕ} (allocSize : ℕ) (hI : Inv s (P ++ b :: n :: R) F) (hba : b.alloc = true)
    (hend : n.ptr = s.blockTail ∨ (n.alloc = false ∧ n.ptr + n.size = s.blockTail))
    (h8 : size % 8 = 0) (h32 : size < 2 ^ 32) (hfits : SumFits s (max size 16))
    (hle : allocSize ≤ b.size + n.size + size) :
    extendHeap s size = some (null, s) ∨
      ∃ q s', extendHeap s size = some (q, s') ∧ q ≠ null ∧ Extended s s' P b n R allocSize := by
  obtain ⟨-, hnp, hBn⟩ := hI.next_eq
  have htail : n.ptr + n.size = s.blockTail := by
    rcases hend with hn | ⟨-, hn⟩
    · have hsize := congrArg Block.size (hBn.tail_of_ptr hn).1
      change n.size = 0 at hsize
      rw [hsize, hn, Nat.add_zero]
    · exact hn
  -- the blocks in front of the tail, and where the new block starts
  obtain ⟨Q, ta, hL, hR, hstart⟩ : ∃ Q ta, P ++ b :: n :: R = Q ++ [⟨s.blockTail, 0, ta, true⟩] ∧
      (∀ p u, ¬ Used (n :: R) p u) ∧ ∀ P' ps q, Q = P' ++ ps →
        ExtendsFrom ps s.blockTail ta q → P' = P ++ [b] ∧ q = n.ptr := by
    rcases hend with hn | ⟨hnf, hn⟩
    · obtain ⟨hnt, rfl⟩ := hBn.tail_of_ptr hn
      have hta : n.prevAlloc = true := hnp.trans hba
      rw [hta] at hnt
      refine ⟨P ++ [b], true, by simp [hnt], fun p u => by simp [hnt, used_cons],
        fun P' ps q h hq => ?_⟩
      rcases hq with ⟨rfl, -, rfl⟩ | ⟨p, -, -, -, hc, -⟩
      · exact ⟨by simpa using h.symm, hn.symm⟩
      · exact absurd hc (by simp)
    · obtain ⟨t, R', rfl⟩ := hBn.behind_free hnf
      obtain ⟨-, -, -, -, hBt⟩ := hBn.uncons
      obtain ⟨ht, rfl⟩ := hBt.tail_of_ptr (hBt.head_eq.1.trans hn)
      rw [hnf] at ht
      refine ⟨P ++ [b, n], false, by simp [ht], fun p u => by simp [ht, used_cons, hnf],
        fun P' ps q h hq => ?_⟩
      rcases hq with ⟨-, hc, -⟩ | ⟨p, rfl, -, -, -, rfl, -⟩
      · exact absurd hc (by simp)
      · have h' : (P ++ [b]) ++ [n] = P' ++ [p] := by simpa using h
        obtain ⟨h1, h2⟩ := List.append_inj' h' rfl
        obtain rfl : n = p := by simpa using h2
        exact ⟨h1.symm, rfl⟩
  have hI' := hI
  rw [hL] at hI'
  rcases extendHeap_spec hI' h8 h32 hfits with ⟨hfail, -⟩ | ⟨P', ps, q, m', F', hQ, hq, hq0, hok, hJ, hk⟩
  · exact Or.inl hfail
  · obtain ⟨rfl, rfl⟩ := hstart P' ps q hQ hq
    refine Or.inr ⟨_, _, hok, hq0, mergedBlock n.ptr _, _, F', by simpa using hJ, rfl, rfl,
      fun p u => ?_, by rw [hL]; exact hk, Or.inr ⟨rfl, ?_⟩⟩
    · have := hR p u
      simp [used_cons, mergedBlock] at this ⊢
      exact this
    · show allocSize ≤ b.size + (s.blockTail + max size 16 - n.ptr)
      omega

theorem reallocExtend_eq (s : State) (p allocSize : ℕ) : reallocExtend s p allocSize =
    if AtEnd s p then
      if mergedSize s p < allocSize then
        (extendHeap s (subSz allocSize (mergedSize s p))).map fun (bp, s) => (decide (bp ≠ null), s)
      else some (true, s)
    else some (true, s) := by
  rw [Option.map_eq_bind]
  rfl

/-- First step: the heap is extended behind the block if needed; `false` when there is no memory
left. -/
theorem reallocExtend_spec (hI : Inv s (P ++ b :: n :: R) F) (hba : b.alloc = true)
    (h8 : allocSize % 8 = 0) (h32 : allocSize < 2 ^ 32)
    (hfits : AtEnd s b.ptr → allocSize ≤ mergedSize s b.ptr ∨
      SumFits s (max (allocSize - mergedSize s b.ptr) minBlockSize)) :
    reallocExtend s b.ptr allocSize = some (false, s) ∨
      ∃ s', reallocExtend s b.ptr allocSize = some (true, s') ∧ Extended s s' P b n R allocSize := by
  have hb : b ∈ P ++ b :: n :: R := by simp
  have hn : n ∈ P ++ b :: n :: R := by simp
  have hsame : (AtEnd s b.ptr → allocSize ≤ mergedSize s b.ptr) → Extended s s P b n R allocSize := fun h =>
    ⟨n, R, F, hI, rfl, rfl, fun _ _ => Iff.rfl, Keeps.refl _ _, Or.inl ⟨rfl, h⟩⟩
  rw [reallocExtend_eq]
  by_cases hend : AtEnd s b.ptr
  · by_cases hlt : mergedSize s b.ptr < allocSize
    · have hsum := (hfits hend).resolve_left (not_le.mpr hlt)
      rw [if_pos hend, if_pos hlt]
      rw [hI.mergedSize_eq] at hlt hsum ⊢
      have hsub : subSz allocSize (b.size + n.size) = allocSize - (b.size + n.size) := by
        unfold subSz; omega
      have hb8 := (hI.geo.sizeOk hb).1; have hn8 := (hI.geo.sizeOk hn).1
      rw [hsub]
      rcases extendHeap_behind allocSize hI hba (hI.atEnd_iff.mp hend) (by omega) (by omega) hsum
        (by omega) with hfail | ⟨q, s', hok, hq0, hext⟩
      · left; simp [hfail]
      · right; exact ⟨s', by simp [hok, hq0], hext⟩
    · right; exact ⟨s, by rw [if_pos hend, if_neg hlt], hsame fun _ => not_lt.mp hlt⟩
  · right; exact ⟨s, if_neg hend, hsame fun h => absurd h hend⟩

/-- Behind a free block stands an allocated one. -/
theorem Inv.alloc_behind {t : Block} (hI : Inv s (P ++ n :: t :: R) F) (hnf : n.alloc = false) :
    t.alloc = true := by
  obtain ⟨-, htp, -⟩ := hI.next_eq
  by_contra hc
  have := hI.coalesced t (by simp) (by simpa using hc)
  rw [htp, hnf] at this
  exact absurd this (by simp)

/-- A free block behind `b` is absorbed, by writing the headers of `b` and of the block behind it. -/
theorem Inv.absorb_spec {t : Block} (hI : Inv s (P ++ b :: n :: t :: R) F) (hba : b.alloc = true)
    (hnf : n.alloc = false) :
    ∃ F', Inv { s with mem := reallocMerge s.mem b.ptr n.ptr }
        (P ++ { b with size := b.size + n.size } :: { t with prevAlloc := true } :: R) F' ∧
      Keeps (P ++ b :: n :: t :: R) s.mem (reallocMerge s.mem b.ptr n.ptr) := by
  have hb : b ∈ P ++ b :: n :: t :: R := by simp
  have hn : n ∈ P ++ b :: n :: t :: R := by simp
  have ht : t ∈ P ++ b :: n :: t :: R := by simp
  have hta : t.alloc = true :=
    Inv.alloc_behind (P := P ++ [b]) (n := n) (F := F) (s := s) (by simpa using hI) hnf
  -- the layout with one block in place of `b` and `n`
  obtain ⟨q, qa, hS, hB⟩ := hI.geo.blocks.split (List.cons_ne_nil _ _)
  obtain ⟨hbq, hbpa, hb16, hb8, hBn⟩ := hB.uncons
  obtain ⟨hnq, -, -, hn8, hBt⟩ := hBn.uncons
  set u : Block := { b with size := b.size + n.size } with hu
  have hg : Geo s.arena s.blockTail (P ++ u :: { t with prevAlloc := true } :: R) := by
    refine ⟨hS.append_blocks ?_, hI.geo.top⟩
    subst hbq hbpa
    have := hBt.setPrev true
    rw [hnq, add_assoc] at this
    rw [hu, hba]
    exact .cons (b.size + n.size) true (by omega) (by omega) this
  -- the code writes the two headers of this layout
  obtain ⟨h1, h2, h3, h4, h5⟩ := Rep.erase_spec (P := P ++ [b]) (R := t :: R)
    (by simpa using hI.toRep) hnf
  set m₁ := segregatedFreeListErase s.mem n.ptr with hm₁
  have hmem : ∀ c, c ∈ P ++ [b] ++ n :: t :: R ↔ c ∈ P ++ b :: n :: t :: R := fun c => by simp
  have hus : SizeOk u.size := hg.sizeOk (by simp)
  have hgb : getSize m₁ (headerPtr b.ptr) = b.size :=
    getSize_of_load (hI.geo.sizeOk hb) (h4 b ((hmem b).mpr hb))
  have hgn : getSize m₁ (headerPtr n.ptr) = n.size :=
    getSize_of_load (hI.geo.sizeOk hn) (h4 n ((hmem n).mpr hn))
  have hadd : addSz b.size n.size = u.size := Nat.mod_eq_of_lt hus.2
  have hset : setSize m₁ (headerPtr b.ptr) u.size = store32 m₁ (headerPtr u.ptr) u.word :=
    setSize_eq (hI.geo.sizeOk hb) hus (h4 b ((hmem b).mpr hb))
  set m₂ := store32 m₁ (headerPtr u.ptr) u.word with hm₂
  have hnx : nextBlock m₂ b.ptr = t.ptr := by
    have hw : load32 m₂ (headerPtr b.ptr) = u.word := load32_store32_same (word_lt hus _ _)
    have hadd : addSz b.ptr u.size = b.ptr + u.size := hg.addSz_eq (b := u) (by simp)
    rw [nextBlock, getSize_of_load hus hw, hadd, hBt.head_eq.1, hnq, add_assoc]
  have htb : t ≠ b := by
    rintro rfl; have := hBt.head_eq.1; omega
  have htw : load32 m₂ (headerPtr t.ptr) = t.word := by
    rw [hm₂, hu, hI.geo.hdr_hdr hb ht htb]
    exact h4 t ((hmem t).mpr ht)
  have hpa : setPrevAlloc m₂ (headerPtr t.ptr) 1 =
      store32 m₂ (headerPtr t.ptr) (word t.size true t.alloc) :=
    setPrevAlloc_eq (hI.geo.sizeOk ht) htw true
  have hcode : reallocMerge s.mem b.ptr n.ptr =
      store32 m₂ (headerPtr t.ptr) (word t.size true t.alloc) := by
    unfold reallocMerge
    rw [if_pos (by rw [hI.getAlloc_eq hn, hnf]; rfl)]
    simp only [← hm₁, hgb, hgn, hadd, hset, hnx, hpa]
  have hsub : ∀ c ∈ P ++ R, c ∈ P ++ b :: n :: t :: R := fun c hc => by
    rw [mem_middle, mem_middle, mem_middle]
    exact Or.inr (Or.inr (Or.inr hc))
  have hrep := hg.claim_spec hba hta (fun c hc => h4 c ((hmem c).mpr (hsub c hc)))
    (fun c hc => h5 c ((hmem c).mpr (hsub c hc))) h1
    (h2.congr (by simp [frees_append, frees_cons, hba, hta]))
  have hfr : Frame s.arena (P ++ b :: n :: t :: R) s.mem (reallocMerge s.mem b.ptr n.ptr) := by
    rw [hcode]
    refine (show Frame s.arena (P ++ b :: n :: t :: R) s.mem m₁ by simpa using h3).trans ?_
    exact (Frame.store_hdr s.arena hb (by have := hI.geo.ptr_pos hb; omega) _).trans
      (Frame.store_hdr s.arena ht (by have := hI.geo.ptr_pos ht; omega) _)
  refine ⟨_, hI.of_rep (by rw [hcode]; exact hrep) (fun c hc hcf => ?_) (hI.geo.headWord hfr), hI.geo.keeps hfr⟩
  simp only [List.mem_append, List.mem_cons] at hc
  rcases hc with hc | rfl | rfl | hc
  · exact hI.coalesced c (by simp [hc]) hcf
  · rw [hba] at hcf; exact absurd hcf (by simp)
  · rfl
  · exact hI.coalesced c (by simp [hc]) hcf

/-- Second step: a free block behind `b` is absorbed. -/
theorem reallocMerge_spec (hI : Inv s (P ++ b :: n :: R) F) (hba : b.alloc = true) :
    ∃ t n' R' F', Inv { s with mem := reallocMerge s.mem b.ptr n.ptr }
        (P ++ { b with size := t } :: n' :: R') F' ∧ (t = if n.alloc then b.size else b.size + n.size) ∧
      (∀ p u, Used (n' :: R') p u ↔ Used (n :: R) p u) ∧
      Keeps (P ++ b :: n :: R) s.mem (reallocMerge s.mem b.ptr n.ptr) ∧
      (∀ c ∈ n' :: R', c.alloc = false → c ∈ n :: R) ∧
      ∀ c ∈ n :: R, c.alloc = false → c ∈ n' :: R' ∨ (n.alloc = false ∧ c = n) := by
  cases hnf : n.alloc with
  | true =>
    have hal := hI.getAlloc_eq (b := n) (by simp)
    rw [hnf] at hal
    have hm : reallocMerge s.mem b.ptr n.ptr = s.mem := by simp [reallocMerge, hal]
    rw [hm]
    exact ⟨b.size, n, R, F, hI, rfl, fun _ _ => Iff.rfl, Keeps.refl _ _, fun c hc _ => hc, fun c hc _ => Or.inl hc⟩
  | false =>
    obtain ⟨t, R', rfl⟩ := hI.next_eq.2.2.behind_free hnf
    have hta : t.alloc = true :=
      Inv.alloc_behind (P := P ++ [b]) (n := n) (F := F) (s := s) (by simpa using hI) hnf
    obtain ⟨F', hI', hk⟩ := hI.absorb_spec hba hnf
    refine ⟨b.size + n.size, { t with prevAlloc := true }, R', F', hI', rfl, fun p v => ?_, hk,
      fun c hc hcf => ?_, fun c hc hcf => ?_⟩
    · rw [used_cons_setPrev, used_cons_free hnf]
    · rcases List.mem_cons.mp hc with rfl | hc
      · exact absurd (hta.symm.trans hcf) (by simp)
      · exact List.mem_cons_of_mem _ (List.mem_cons_of_mem _ hc)
    · rcases List.mem_cons.mp hc with rfl | hc
      · exact Or.inr ⟨rfl, rfl⟩
      · rcases List.mem_cons.mp hc with rfl | hc
        · exact absurd (hta.symm.trans hcf) (by simp)
        · exact Or.inl (List.mem_cons_of_mem _ hc)

/-- Where `mm_realloc` allocates a new block, it has not extended the heap, and the request does not wrap. -/
theorem Inv.move_fits {size t : ℕ} {s₁ : State} {R₁ R' : List Block} {n₁ n' : Block} {F₁ F' : Fin 10 → List ℕ}
    (hp : b.ptr ≠ null) (hsz : size ≠ 0) (hfits : ReallocFits s b.ptr size) (hba : b.alloc = true)
    (hI₁ : Inv s₁ (P ++ b :: n₁ :: R₁) F₁)
    (hroom : (s₁ = s ∧ (AtEnd s b.ptr → allocSizeOf size ≤ mergedSize s b.ptr)) ∨
      (n₁.alloc = false ∧ allocSizeOf size ≤ b.size + n₁.size))
    (hI' : Inv { s₁ with mem := reallocMerge s₁.mem b.ptr n.ptr } (P ++ { b with size := t } :: n' :: R') F')
    (ht : t = if n₁.alloc then b.size else b.size + n₁.size) (hsub : ∀ c ∈ n' :: R', c.alloc = false → c ∈ n₁ :: R₁)
    (hkeep : ∀ c ∈ n₁ :: R₁, c.alloc = false → c ∈ n' :: R' ∨ (n₁.alloc = false ∧ c = n₁))
    (hlt : t < allocSizeOf size) : MallocFits { s₁ with mem := reallocMerge s₁.mem b.ptr n.ptr } size := by
  rcases hroom with ⟨rfl, hend⟩ | ⟨hnf, hge⟩
  · -- the heap does not end behind `b`, or `b` would be large enough
    have hnotEnd : ¬ AtEnd s₁ b.ptr := by
      intro h
      have hle := hend h
      rw [hI₁.mergedSize_eq] at hle
      rcases hI₁.atEnd_iff.mp h with hn | ⟨hnf, -⟩
      · have hsize := congrArg Block.size (hI₁.next_eq.2.2.tail_of_ptr hn).1
        change n₁.size = 0 at hsize
        rw [hsize] at hle
        split_ifs at ht <;> omega
      · rw [hnf, if_neg Bool.false_ne_true] at ht
        omega
    have hmalloc := hfits.elsewhere hp hsz hnotEnd (by rw [hI₁.reachSize_eq, ← ht]; exact hlt)
    refine hI₁.mallocFits_congr hI' rfl rfl (fun c hc hcf => ?_) (fun c hc hcf => ?_) hmalloc
    · rcases List.mem_append.mp hc with hc | hc
      · exact List.mem_append_left _ hc
      · rcases List.mem_cons.mp hc with rfl | hc
        · exact absurd (hba.symm.trans hcf) (by simp)
        · exact List.mem_append_right _ (List.mem_cons_of_mem _ (hsub c hc hcf))
    · rcases List.mem_append.mp hc with hc | hc
      · exact Or.inl (List.mem_append_left _ hc)
      · rcases List.mem_cons.mp hc with rfl | hc
        · exact absurd (hba.symm.trans hcf) (by simp)
        · rcases hkeep c hc hcf with hc' | ⟨hnf, rfl⟩
          · exact Or.inl (List.mem_append_right _ (List.mem_cons_of_mem _ hc'))
          · rw [hnf, if_neg Bool.false_ne_true] at ht
            exact Or.inr ⟨by omega, fun he => hnotEnd (hI₁.atEnd_iff.mpr (Or.inr ⟨hnf, he⟩))⟩
  · rw [hnf, if_neg Bool.false_ne_true] at ht
    omega

/-- Splitting a block in use into two of them, by writing their headers. -/
theorem Inv.split_spec (hI : Inv s (P ++ b :: n :: R) F) (hba : b.alloc = true) (h16 : 16 ≤ allocSize)
    (h8 : allocSize % 8 = 0) (hle : allocSize + 16 ≤ b.size) :
    ∃ m', nextBlock (setSize s.mem (headerPtr b.ptr) allocSize) b.ptr = b.ptr + allocSize ∧
      setMeta (setSize s.mem (headerPtr b.ptr) allocSize) (headerPtr (b.ptr + allocSize))
        (b.size - allocSize) 1 1 = m' ∧
      Inv { s with mem := m' } (P ++ ⟨b.ptr, allocSize, b.prevAlloc, true⟩ ::
        ⟨b.ptr + allocSize, b.size - allocSize, true, true⟩ :: n :: R) F ∧
      Keeps (P ++ ⟨b.ptr, allocSize, b.prevAlloc, true⟩ ::
        ⟨b.ptr + allocSize, b.size - allocSize, true, true⟩ :: n :: R) s.mem m' := by
  have hb : b ∈ P ++ b :: n :: R := by simp
  have hg := hI.geo.split_block h16 h8 hle
  rw [hba] at hg
  set u : Block := ⟨b.ptr, allocSize, b.prevAlloc, true⟩ with hu
  set r : Block := ⟨b.ptr + allocSize, b.size - allocSize, true, true⟩ with hr
  have hum : u ∈ P ++ u :: r :: n :: R := by simp
  have hrm : r ∈ P ++ u :: r :: n :: R := by simp
  have hus : SizeOk allocSize := hg.sizeOk hum
  have hset : setSize s.mem (headerPtr b.ptr) allocSize = store32 s.mem (headerPtr u.ptr) u.word := by
    have := setSize_eq (hI.geo.sizeOk hb) hus (hI.hdrs b hb)
    rw [hba] at this
    exact this
  set m₁ := store32 s.mem (headerPtr u.ptr) u.word with hm₁
  set m₂ := store32 m₁ (headerPtr r.ptr) r.word with hm₂
  have hnx : nextBlock m₁ b.ptr = r.ptr := by
    have hw : load32 m₁ (headerPtr b.ptr) = u.word := load32_store32_same (word_lt hus _ _)
    rw [nextBlock, getSize_of_load hus hw]
    exact hg.addSz_eq hum
  have hme : setMeta m₁ (headerPtr r.ptr) (b.size - allocSize) 1 1 = m₂ :=
    setMeta_eq (hg.sizeOk hrm) true true
  have hin : ∀ c ∈ P ++ n :: R, c ∈ P ++ b :: n :: R := fun c hc => mem_middle.mpr (Or.inr hc)
  have hrep := hg.claim_spec rfl rfl (fun c hc => hI.hdrs c (hin c hc))
    (fun c hc => hI.ftrs c (hin c hc)) hI.lists
    (hI.filed.congr (by simp [frees_append, frees_cons, hba]))
  have hfr : Frame s.arena (P ++ u :: r :: n :: R) s.mem m₂ :=
    (Frame.store_hdr s.arena hum (by have := hg.ptr_pos hum; omega) _).trans
      (Frame.store_hdr s.arena hrm (by have := hg.ptr_pos hrm; omega) _)
  have hcoal : Coalesced (P ++ u :: r :: n :: R) := by
    intro c hc hcf
    rw [mem_middle, mem_middle] at hc
    rcases hc with rfl | rfl | hc
    · exact absurd hcf (by simp)
    · exact absurd hcf (by simp)
    · exact hI.coalesced c (hin c hc) hcf
  refine ⟨m₂, ?_, ?_, hI.of_rep hrep hcoal (hg.headWord hfr), hg.keeps hfr⟩
  · rw [hset]
    exact hnx
  · rw [hset]
    exact hme

/-- Third step: the rest of a block that is too large is given back. -/
theorem reallocShrink_spec (hI : Inv s (P ++ b :: n :: R) F) (hba : b.alloc = true)
    (h16 : 16 ≤ allocSize) (h8 : allocSize % 8 = 0) (hle : allocSize ≤ b.size) :
    ∃ m' L' F' t, reallocShrink s b.ptr allocSize = some { s with mem := m' } ∧
      Inv { s with mem := m' } L' F' ∧ allocSize ≤ t ∧ t ≤ b.size ∧
      (∀ p u, Used L' p u ↔ Used P p u ∨ (p = b.ptr ∧ u = t) ∨ Used (n :: R) p u) ∧
      (∀ p u, Used P p u ∨ Used (n :: R) p u → SameAt s.mem m' p (u - 4)) ∧
      SameAt s.mem m' b.ptr (t - 4) := by
  have hb : b ∈ P ++ b :: n :: R := by simp
  have hbs := hI.geo.sizeOk hb
  have hadd : addSz allocSize 16 = allocSize + 16 := by
    refine Nat.mod_eq_of_lt ?_
    have := (hI.geo.mem_in hb).top; have := hI.geo.ptr_pos hb
    have := hI.geo.top; have := s.arena.start_top
    omega
  unfold reallocShrink
  simp only [hI.getSize_eq hb, minBlockSize, hadd]
  by_cases hsp : allocSize + 16 ≤ b.size
  · rw [if_pos hsp]
    -- two blocks in use in place of `b`; the second is freed
    obtain ⟨m₂, hnx, hme, hI₂, hk⟩ := hI.split_spec hba h16 h8 hsp
    have hsub : subSz b.size allocSize = b.size - allocSize := by
      have := hbs.2; unfold subSz; omega
    simp only [hnx, hsub, hme]
    set u : Block := ⟨b.ptr, allocSize, b.prevAlloc, true⟩ with hu
    set r : Block := ⟨b.ptr + allocSize, b.size - allocSize, true, true⟩ with hr
    have hused : ∀ p v, Used (P ++ u :: r :: n :: R) p v ↔ Used P p v ∨
        (p = b.ptr ∧ v = allocSize) ∨ (p = r.ptr ∧ v = r.size) ∨ Used (n :: R) p v := by
      intro p v
      rw [used_append, used_cons_alloc rfl h16, used_cons_alloc rfl (by simp [hr]; omega)]
    obtain ⟨m', L', F', h1, h2, h3, h4⟩ := mmFree_spec hI₂ ((hused r.ptr r.size).mpr (by simp))
    obtain ⟨hlo, hhi⟩ := hI.geo.used_order
    have hPne : ∀ p v, Used P p v → p ≠ r.ptr := fun p v h e => by
      have := hlo p v h; simp only [hr] at e; omega
    have hRne : ∀ p v, Used (n :: R) p v → p ≠ r.ptr := fun p v h e => by
      have := hhi p v h; simp only [hr] at e; omega
    have hbne : b.ptr ≠ r.ptr := by simp only [hr]; omega
    have hkeep : ∀ p v, Used (P ++ u :: r :: n :: R) p v → p ≠ r.ptr → SameAt s.mem m' p (v - 4) :=
      fun p v hv hne y hy1 hy2 => (h4 p v hv hne y hy1 hy2).trans (hk p v hv y hy1 hy2)
    refine ⟨m', L', F', allocSize, h1, h2, le_rfl, hle, fun p v => ?_, fun p v hv => ?_, ?_⟩
    · rw [h3, hused]
      constructor
      · rintro ⟨h | h | ⟨h, -⟩ | h, hne⟩
        · exact Or.inl h
        · exact Or.inr (Or.inl h)
        · exact absurd h hne
        · exact Or.inr (Or.inr h)
      · rintro (h | ⟨rfl, rfl⟩ | h)
        · exact ⟨Or.inl h, hPne p v h⟩
        · exact ⟨by simp, hbne⟩
        · exact ⟨by simp [h], hRne p v h⟩
    · rcases hv with h | h
      · exact hkeep p v ((hused p v).mpr (by simp [h])) (hPne p v h)
      · exact hkeep p v ((hused p v).mpr (by simp [h])) (hRne p v h)
    · exact hkeep b.ptr allocSize ((hused _ _).mpr (by simp)) hbne
  · rw [if_neg hsp]
    refine ⟨s.mem, _, F, b.size, rfl, hI, hle, le_rfl, fun p u => ?_, fun _ _ _ _ _ _ => rfl,
      fun _ _ _ => rfl⟩
    rw [used_append, used_cons_alloc hba (by omega)]

end Steps

/-! ## Writes by the client -/

section Client

variable {s : State} {L : List Block} {F : Fin 10 → List ℕ} {m' : Mem}

/-- Writes to payloads of blocks in use keep the invariant. -/
theorem Inv.client_write (hI : Inv s L F) (h : ∀ y, ¬ Client L y → m' y = s.mem y) :
    Inv { s with mem := m' } L F := by
  -- no byte the allocator reads is a client's
  have hown : ∀ y, Owned L y → m' y = s.mem y := fun y hy =>
    h y fun hc => hI.geo.blocks.not_owned hc hy
  have hout : ∀ y, y < s.arena.memStartBrk + 16 ∨ s.arena.memStartBrk + maxHeap ≤ y →
      m' y = s.mem y := by
    refine fun y hy => h y ?_
    rintro ⟨b, hb, -, h1, h2⟩
    have := (hI.geo.mem_in hb).lo; have := (hI.geo.mem_in hb).top; have := hI.geo.top
    omega
  refine hI.of_rep ⟨hI.geo, fun b hb => ?_, fun b hb hbf => ?_, ?_, hI.filed⟩ hI.coalesced ?_
  · rw [← hI.hdrs b hb]
    refine load32_congr fun y h1 h2 => hown y ⟨b, hb, Or.inl ?_⟩
    have := hI.geo.ptr_pos hb
    unfold headerPtr at h1 h2
    omega
  · rw [← hI.ftrs b hb hbf]
    have := hI.geo.blocks.free_size hb hbf
    exact load32_congr fun y h1 h2 => hown y ⟨b, hb, Or.inr ⟨hbf, by omega, by omega⟩⟩
  · refine hI.lists.congr fun a ha y h1 h2 => ?_
    rcases ha with ⟨i, rfl⟩ | ⟨i, ha⟩
    · have := headOf_outside s.arena i
      exact hout y (by omega)
    · obtain ⟨b, hb, hbf, rfl⟩ := hI.filed.nodesIn i a ha
      have := hI.geo.blocks.free_size hb hbf
      exact hown y ⟨b, hb, Or.inr ⟨hbf, by omega, by omega⟩⟩
  · exact load32_congr fun y h1 h2 => hout y (by omega)

/-- The payload of a block in use consists of client bytes. -/
theorem Used.client {p size y : ℕ} (hu : Used L p size) (h1 : p ≤ y) (h2 : y < p + (size - 4)) :
    Client L y := by
  obtain ⟨b, hb, hba, h16, rfl, rfl⟩ := hu
  exact ⟨b, hb, hba, h1, by omega⟩

/-- Payloads of different blocks in use are disjoint. -/
theorem Geo.used_disjoint {A : Arena} {hi p q s t : ℕ} (hg : Geo A hi L) (hp : Used L p s)
    (hq : Used L q t) (hne : p ≠ q) : p + s ≤ q ∨ q + t ≤ p := by
  obtain ⟨b, hb, -, -, rfl, rfl⟩ := hp
  obtain ⟨c, hc, -, -, rfl, rfl⟩ := hq
  rcases hg.blocks.apart hb hc with rfl | h | h
  · exact absurd rfl hne
  · exact Or.inl h.1
  · exact Or.inr h.1

end Client

/-! ## Moving, and the whole function -/

section Move

variable {s : State} {L : List Block} {F : Fin 10 → List ℕ}

/-- Last step: a new block, a copy, and the old block is freed. -/
theorem reallocMove_spec {p t size oldSize : ℕ} (hI : Inv s L F) (hu : Used L p t) (hfits : MallocFits s size)
    (hlt : t < allocSizeOf size) (hold : oldSize + 4 ≤ t) :
    reallocMove s p size oldSize = some (null, s) ∨
      ∃ r s' L' F' v, reallocMove s p size oldSize = some (r, s') ∧ r ≠ null ∧ r ≠ p ∧
        Inv s' L' F' ∧ s'.arena = s.arena ∧ allocSizeOf size ≤ v ∧ (∀ w, ¬ Used L r w) ∧
        (∀ q w, Used L' q w ↔ (Used L q w ∧ q ≠ p) ∨ (q = r ∧ w = v)) ∧
        (∀ q w, Used L q w → q ≠ p → SameAt s.mem s'.mem q (w - 4)) ∧
        ∀ i < min size oldSize, s'.mem (r + i) = s.mem (p + i) := by
  rcases mmMalloc_spec hI size hfits with ⟨hfail, -⟩ | ⟨r, s₁, L₁, F₁, v, hm, hr0, -, hI₁, ha, hv, hnew, hus, hk⟩
  · left; simp [reallocMove, hfail]
  · right
    have hrp : r ≠ p := fun e => hnew t (e ▸ hu)
    have hrL : Used L₁ r v := (hus r v).mpr (Or.inr ⟨rfl, rfl⟩)
    have hpL : Used L₁ p t := (hus p t).mpr (Or.inl hu)
    have hdis := hI₁.geo.used_disjoint hrL hpL hrp
    -- the copy stays inside the payload of the new block
    set n := min size oldSize with hn
    set m₂ := copyBytes s₁.mem r p n with hm₂
    have hI₂ : Inv { s₁ with mem := m₂ } L₁ F₁ := by
      refine hI₁.client_write fun y hy => copyBytes_out ?_
      by_contra hc
      exact hy (hrL.client (y := y) (by omega) (by omega))
    obtain ⟨m₃, L₃, F₃, h1, h2, h3, h4⟩ := mmFree_spec hI₂ hpL
    refine ⟨r, _, L₃, F₃, v, ?_, hr0, hrp, h2, ha, hv, hnew, fun q w => ?_, fun q w hq hne => ?_,
      fun i hi => ?_⟩
    · simp only [reallocMove, hm, Option.bind_eq_bind, Option.bind_some, if_neg hr0, ← hn, ← hm₂, h1]
      rfl
    · rw [h3, hus]
      constructor
      · rintro ⟨h | h, hne⟩
        · exact Or.inl ⟨h, hne⟩
        · exact Or.inr h
      · rintro (⟨h, hne⟩ | ⟨rfl, rfl⟩)
        · exact ⟨Or.inl h, hne⟩
        · exact ⟨Or.inr ⟨rfl, rfl⟩, hrp⟩
    · have hqL : Used L₁ q w := (hus q w).mpr (Or.inl hq)
      have hqr : q ≠ r := fun e => hnew w (e ▸ hq)
      have hd := hI₁.geo.used_disjoint hrL hqL hqr.symm
      intro y hy1 hy2
      calc m₃ y = m₂ y := h4 q w hqL hne y hy1 hy2
        _ = s₁.mem y := copyBytes_out (by omega)
        _ = s.mem y := hk q w hq y hy1 hy2
    · calc m₃ (r + i) = m₂ (r + i) := h4 r v hrL hrp _ (by omega) (by omega)
        _ = s₁.mem (p + i) := copyBytes_spec (by omega) i hi
        _ = s.mem (p + i) := hk p t hu _ (by omega) (by omega)

/-- **`mm_realloc`** of a live block with a positive size never aborts.  When it returns `NULL` the
block is still in use, perhaps larger; otherwise the block returned replaces it. -/
theorem mmRealloc_spec {p t size : ℕ} (hI : Inv s L F) (hu : Used L p t) (hsz : size ≠ 0)
    (hfits : ReallocFits s p size) :
    ∃ r s' L' F' v, mmRealloc s p size = some (r, s') ∧ Inv s' L' F' ∧ s'.arena = s.arena ∧
      (∀ q w, Used L q w → q ≠ p → SameAt s.mem s'.mem q (w - 4)) ∧
      ((r = null ∧ t ≤ v ∧ (∀ q w, Used L' q w ↔ (Used L q w ∧ q ≠ p) ∨ (q = p ∧ w = v)) ∧
          SameAt s.mem s'.mem p (t - 4)) ∨
        (r ≠ null ∧ (r = p ∨ ∀ w, ¬ Used L r w) ∧ allocSizeOf size ≤ v ∧
          (∀ q w, Used L' q w ↔ (Used L q w ∧ q ≠ p) ∨ (q = r ∧ w = v)) ∧
          ∀ i, i + 4 < t → i < size → i + 4 < allocSizeOf size → s'.mem (r + i) = s.mem (p + i))) := by
  obtain ⟨b, hb, hba, hb16, rfl, rfl⟩ := hu
  obtain ⟨P, n, R, rfl⟩ := hI.geo.blocks.exists_next hb hb16
  obtain ⟨h16, h8, h32⟩ := allocSizeOf_spec size
  obtain ⟨hnext, -, -⟩ := hI.next_eq
  have hp : b.ptr ≠ null := ne_of_gt (by have := hI.geo.ptr_pos hb; unfold null; omega)
  have hold : subSz b.size 4 = b.size - 4 := by
    have := (hI.geo.sizeOk hb).2; unfold subSz; omega
  have hrest := fun q w => (hI.geo.used_rest hba hb16 q w).1
  have hbu : Used (P ++ b :: n :: R) b.ptr b.size := ⟨b, hb, hba, hb16, rfl, rfl⟩
  rcases reallocExtend_spec hI hba h8 h32 (hfits.atEnd hp hsz) with
    hfail | ⟨s₁, hok, n₁, R₁, F₁, hI₁, hn₁, ha₁, hus₁, hk₁, hroom⟩
  · -- no memory: nothing has changed
    have hcode : mmRealloc s b.ptr size = some (null, s) := by
      simp [mmRealloc, hp, hsz, hfail]
    refine ⟨null, s, _, F, b.size, hcode, hI, rfl, fun _ _ _ _ _ _ _ => rfl,
      Or.inl ⟨rfl, le_rfl, fun q w => ?_, fun _ _ _ => rfl⟩⟩
    rw [hrest, (hI.geo.used_rest hba hb16 q w).2]
  · obtain ⟨t₂, n₂, R₂, F₂, hI₂, hsize₂, hus₂, hk₂, hsub₂, hkeep₂⟩ := reallocMerge_spec hI₁ hba
    rw [hn₁] at hI₂ hk₂
    have ht₂ : b.size ≤ t₂ := by split_ifs at hsize₂ <;> omega
    set s₂ : State := { s₁ with mem := reallocMerge s₁.mem b.ptr n.ptr } with hs₂
    set u : Block := { b with size := t₂ } with huu
    have hub : u ∈ P ++ u :: n₂ :: R₂ := by simp
    have hu16 : 16 ≤ u.size := by simp only [huu]; omega
    have hgs : getSize (reallocMerge s₁.mem b.ptr n.ptr) (headerPtr b.ptr) = t₂ :=
      hI₂.getSize_eq hub
    have hcode : mmRealloc s b.ptr size =
        if allocSizeOf size ≤ t₂ then
          (reallocShrink s₂ b.ptr (allocSizeOf size)).map fun s => (b.ptr, s)
        else reallocMove s₂ b.ptr size (b.size - 4) := by
      simp only [mmRealloc, if_neg hp, if_neg hsz, hI.getSize_eq hb, hold, hnext, hok,
        Option.bind_eq_bind, Option.bind_some, if_true, hgs]
      split_ifs
      · rw [Option.map_eq_bind]; rfl
      · rfl
    have hus : ∀ q w, Used (n₂ :: R₂) q w ↔ Used (n :: R) q w := fun q w => (hus₂ q w).trans (hus₁ q w)
    -- payloads up to here
    have hkeep : Keeps (P ++ b :: n :: R) s.mem s₂.mem := by
      refine hk₁.trans (hk₂.mono fun q w h => ?_)
      rw [(hI.geo.used_rest hba hb16 q w).2] at h
      rwa [(hI₁.geo.used_rest hba hb16 q w).2, hus₁]
    by_cases hle : allocSizeOf size ≤ t₂
    · -- in place
      obtain ⟨m', L', F', v, h1, h2, h3, h4, h5, h6, h7⟩ := reallocShrink_spec hI₂ hba h16 h8 hle
      refine ⟨b.ptr, { s₂ with mem := m' }, L', F', v, ?_, h2, ha₁, fun q w hq hne => ?_,
        Or.inr ⟨hp, Or.inl rfl, h3, fun q w => ?_, fun i hi1 hi2 hi3 => ?_⟩⟩
      · rw [hcode, if_pos hle]
        erw [h1]
        rfl
      · intro y hy1 hy2
        refine (h6 q w ?_ y hy1 hy2).trans (hkeep q w hq y hy1 hy2)
        rw [hus]
        exact (hrest q w).mp ⟨hq, hne⟩
      · rw [h5, hus, hrest, or_assoc, or_comm (a := Used (n :: R) q w)]
      · exact (h7 _ (by simp [huu]) (by simp only [huu]; omega)).trans
          (hkeep _ _ hbu _ (by omega) (by omega))
    · -- elsewhere
      rw [if_neg hle] at hcode
      have hL₂ : ∀ q w, Used (P ++ u :: n₂ :: R₂) q w ∧ q ≠ b.ptr ↔
          Used (P ++ b :: n :: R) q w ∧ q ≠ b.ptr := fun q w => by
        rw [hrest, ← hus]
        exact (hI₂.geo.used_rest hba hu16 q w).1
      have hu₂ : Used (P ++ u :: n₂ :: R₂) b.ptr t₂ := ⟨u, hub, hba, hu16, rfl, rfl⟩
      have hlt : t₂ < allocSizeOf size := by omega
      have hol : b.size - 4 + 4 ≤ t₂ := by omega
      have hmove : MallocFits s₂ size := Inv.move_fits hp hsz hfits hba hI₁ hroom hI₂ hsize₂ hsub₂ hkeep₂ hlt
      rcases reallocMove_spec hI₂ hu₂ hmove hlt hol with
        hfail | ⟨r, s', L', F', v, h1, h2, h3, h4, h5, h6, h7, h8, h9, h10⟩
      · refine ⟨null, s₂, _, F₂, t₂, hcode.trans hfail, hI₂, ha₁, fun q w hq _ => hkeep q w hq,
          Or.inl ⟨rfl, ht₂, fun q w => ?_, hkeep _ _ hbu⟩⟩
        obtain ⟨hne, hall⟩ := hI₂.geo.used_rest hba hu16 q w
        rw [hall, ← hL₂]
        exact or_congr hne.symm Iff.rfl
      · refine ⟨r, s', L', F', v, hcode.trans h1, h4, h5.trans ha₁, fun q w hq hne => ?_,
          Or.inr ⟨h2, Or.inr fun w hw => ?_, h6, fun q w => ?_, fun i hi1 hi2 hi3 => ?_⟩⟩
        · intro y hy1 hy2
          exact (h9 q w ((hL₂ q w).mpr ⟨hq, hne⟩).1 hne y hy1 hy2).trans (hkeep q w hq y hy1 hy2)
        · exact h7 w ((hL₂ r w).mpr ⟨hw, h3⟩).1
        · rw [h8, hL₂]
        · exact (h10 i (by omega)).trans (hkeep _ _ hbu _ (by omega) (by omega))

end Move

end Csapp.Malloc
