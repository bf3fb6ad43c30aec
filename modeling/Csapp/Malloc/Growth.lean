import Csapp.Malloc.BestFit

/-!
# Malloc.Growth — how far `mm_malloc` lets the heap grow, and what a failure leaves

When no free block is large enough, the free block in front of the tail is too small as well, so that the
subtraction in `do_mm_malloc` does not wrap, and the heap grows by what this block lacks
(`growth_spec`).  A refusal of `mem_sbrk` changes nothing.  `mm_realloc` may have merged blocks before it
fails; the block it was called for stays in use with its bytes, in a heap with the invariant
(`realloc_null_spec`).
-/

namespace Csapp.Malloc

open Csapp.Lib

/-- `trailingFree` is the size of the free block that ends at the tail. -/
def TrailingFreeOk (s : State) (bps : List ℕ) : Prop :=
  (trailingFree s = 0 ∧ ∀ bp ∈ bps, getAlloc s.mem (headerPtr bp) = 0 → nextBlock s.mem bp ≠ s.blockTail) ∨
    ∃ bp ∈ bps, getAlloc s.mem (headerPtr bp) = 0 ∧ nextBlock s.mem bp = s.blockTail ∧
      trailingFree s = blockSize s bp

/-- `mm_malloc(n)` when no free block is large enough. -/
structure Grows (s : State) (n : ℕ) : Prop where
  /-- The subtraction does not wrap. -/
  le : trailingFree s ≤ allocSizeOf n
  refused : (memSbrk s (toInt32 (growthOf s (allocSizeOf n)))).1 = sbrkFail → mmMalloc s n = some (null, s)
  granted : (memSbrk s (toInt32 (growthOf s (allocSizeOf n)))).1 ≠ sbrkFail → ∃ bp s₁ s',
    extendHeap s (allocSizeOf n - trailingFree s) = some (bp, s₁) ∧ bp ≠ null ∧
      Fits s₁ (allocSizeOf n) bp ∧ s₁.place bp (allocSizeOf n) = some s' ∧ mmMalloc s n = some (bp, s') ∧
      s'.memBrk = s.memBrk + growthOf s (allocSizeOf n) ∧
      s'.blockTail = s.blockTail + growthOf s (allocSizeOf n)

/-- In `s'` the live block `p` of `s` is in use, at least as large, and has its bytes. -/
structure StillLive (s s' : State) (p : ℕ) : Prop where
  mem : ∃ bps, heapWalk s' = some bps ∧ p ∈ bps
  used : getAlloc s'.mem (headerPtr p) = 1
  size : blockSize s p ≤ blockSize s' p
  bytes : ∀ y, p ≤ y → y < p + (blockSize s p - 4) → s'.mem y = s.mem y

/-! ## The free block in front of the tail -/

section Trailing

variable {s : State} {L P : List Block} {F : Fin 10 → List ℕ} {ta : Bool} {a : ℕ}

theorem Inv.trailingFree_ok (hI : Inv s L F) :
    TrailingFreeOk s (s.blockHead :: L.dropLast.map Block.ptr) := by
  have hwalk : ∀ bp, bp ∈ s.blockHead :: L.dropLast.map Block.ptr → getAlloc s.mem (headerPtr bp) = 0 →
      ∃ b ∈ L, b.alloc = false ∧ b.ptr = bp := by
    intro bp hbp hfree
    obtain ⟨b, hb, hbf, hptr, -⟩ := (hI.fits_walk 0 bp).mp ⟨hbp, hfree, Nat.zero_le _⟩
    exact ⟨b, hb, hbf, hptr⟩
  rcases hI.trailingFree_cases with ⟨h1, h2⟩ | ⟨b, hb, hbf, he, hsz⟩
  · refine Or.inl ⟨h1, fun bp hbp hfree => ?_⟩
    obtain ⟨b, hb, hbf, rfl⟩ := hwalk bp hbp hfree
    rw [hI.nextBlock_eq hb]
    exact h2 b hb hbf
  · obtain ⟨hmem, hfree, -⟩ := (hI.fits_walk 0 b.ptr).mpr ⟨b, hb, hbf, rfl, Nat.zero_le _⟩
    refine Or.inr ⟨b.ptr, hmem, hfree, ?_, ?_⟩
    · rw [hI.nextBlock_eq hb, he]
    · rw [hsz, blockSize, hI.getSize_eq hb]

/-- When `mem_sbrk` refuses. -/
theorem Inv.memSbrk_fails_iff (hI : Inv s L F) (size : ℕ) (h32 : size < 2 ^ 32) (hfits : SumFits s size) :
    (memSbrk s (toInt32 size)).1 = sbrkFail ↔ s.memMaxAddr < s.blockTail + size := by
  have hle := hI.geo.blocks.le
  have htop := hI.geo.top
  have hstart := s.arena.start_top
  have hal := s.arena.start_aligned
  have hmax : s.memMaxAddr = s.arena.memStartBrk + maxHeap := rfl
  unfold maxHeap at *
  rcases memSbrk_cases s hfits h32 with ⟨h1, h2⟩ | ⟨h1, h2⟩
  · rw [h1]
    refine iff_of_true rfl ?_
    rw [hI.brk] at h2
    omega
  · rw [h2]
    refine iff_of_false ?_ ?_
    · show s.memBrk ≠ sbrkFail
      rw [hI.brk]
      unfold sbrkFail
      omega
    · rw [hI.brk] at h1
      omega

end Trailing

/-! ## Growing -/

section Growing

variable {s : State} {L : List Block} {F : Fin 10 → List ℕ} {n : ℕ}

/-- **`mm_malloc` when nothing fits.** -/
theorem growth_spec (hI : Inv s L F) (hn : n ≠ 0) (hno : ∀ b ∈ L, b.alloc = false → b.size < allocSizeOf n)
    (hfits : SumFits s (growthOf s (allocSizeOf n))) : Grows s n := by
  obtain ⟨h16, h8, h32⟩ := allocSizeOf_spec n
  obtain ⟨hlt, he⟩ := hI.extendSize_eq h32 hno (by omega)
  have hfind : segregatedFindBestFit s.arena.segregatedFreeLists s.mem (allocSizeOf n) = some null := by
    obtain ⟨r, h1, h2⟩ := segregatedFindBestFit_spec hI.toRep h16
    rcases h2 with ⟨rfl, -⟩ | ⟨-, b, hb, hbf, -, hle, -⟩
    · exact h1
    · exact absurd hle (not_le.mpr (hno b hb hbf))
  have hsbrk := hI.memSbrk_fails_iff (growthOf s (allocSizeOf n)) (by unfold growthOf minBlockSize; omega) hfits
  obtain ⟨P, ta, rfl, -⟩ := hI.geo.blocks.exists_tail
  obtain ⟨e, he', he8, hele, hroom⟩ := extendSize_spec hI.toRep h8 h32 fun b hb => hno b (by simp [hb])
  obtain rfl : allocSizeOf n - trailingFree s = e := he.symm.trans he'
  have hgrow : max (allocSizeOf n - trailingFree s) 16 = growthOf s (allocSizeOf n) := rfl
  have hext := extendHeap_spec hI he8 (by omega) hfits
  rw [hgrow] at hext hroom
  rcases hext with ⟨hfail, hwhy⟩ | ⟨P', ps, q, m', F', hP, hq, hq0, hok, hI', -⟩
  · -- the heap is full
    refine ⟨le_of_lt hlt, fun _ => mmMalloc_of_full hn hfind he hfail, fun hgranted => ?_⟩
    refine absurd (hsbrk.mpr ?_) hgranted
    rcases hwhy with hwhy | hwhy
    · have htail := hI.geo.blocks.le
      have hmax : s.memMaxAddr = s.arena.memStartBrk + maxHeap := rfl
      have hge : allocSizeOf n - trailingFree s ≤ growthOf s (allocSizeOf n) := le_max_left _ _
      unfold maxHeap at hmax
      omega
    · exact hwhy
  · refine ⟨le_of_lt hlt, fun hrefused => ?_, fun _ => ?_⟩
    · have htop : s.blockTail + growthOf s (allocSizeOf n) ≤ s.memMaxAddr := hI'.geo.top
      exact absurd (hsbrk.mp hrefused) (not_lt.mpr htop)
    · have hlen := hroom P' ps q hP hq
      generalize growthOf s (allocSizeOf n) = g at *
      set c := mergedBlock q (s.blockTail + g)
      have hc : c ∈ P' ++ [c] ++ [⟨s.blockTail + g, 0, false, true⟩] := by simp
      have hfree : getAlloc m' (headerPtr c.ptr) = false.toNat := hI'.getAlloc_eq hc
      have hsize : getSize m' (headerPtr c.ptr) = c.size := hI'.getSize_eq hc
      obtain ⟨m'', L', F'', t, h1, -⟩ := State.place_spec hI' hc rfl h16 h8 hlen
      refine ⟨q, _, _, hok, hq0, ⟨hfree, ?_⟩, h1, mmMalloc_of_grown hn hfind he hok hq0 h1, ?_, rfl⟩
      · show allocSizeOf n ≤ getSize m' (headerPtr c.ptr)
        rw [hsize]
        exact hlen
      · rw [hI.brk]

/-- `extend_heap` leaves `mem_brk` where `mem_sbrk` puts it. -/
theorem extendHeap_brk {size q : ℕ} {s' : State} (h : extendHeap s size = some (q, s')) :
    s'.memBrk = (memSbrk s (toInt32 (max (align size) minBlockSize))).2.memBrk := by
  unfold extendHeap at h
  dsimp only at h
  split_ifs at h
  · obtain ⟨-, rfl⟩ := Prod.mk.inj (Option.some.inj h)
    rfl
  · obtain ⟨m₁, -, h⟩ := Option.bind_eq_some_iff.mp h
    obtain ⟨⟨bp, m₂⟩, -, h⟩ := Option.bind_eq_some_iff.mp h
    obtain ⟨-, rfl⟩ := Prod.mk.inj (Option.some.inj h)
    rfl

/-- A sum that wraps is accepted, and `mem_brk` does not move by the growth. -/
theorem Inv.not_grows (hI : Inv s L F) (hno : ∀ b ∈ L, b.alloc = false → b.size < allocSizeOf n)
    (hwrap : ¬ SumFits s (growthOf s (allocSizeOf n))) : ¬ Grows s n := by
  obtain ⟨h16, h8, h32⟩ := allocSizeOf_spec n
  obtain ⟨-, he⟩ := hI.extendSize_eq h32 hno (by omega)
  have hal : align (allocSizeOf n - trailingFree s) = allocSizeOf n - trailingFree s := by
    obtain ⟨P, ta, rfl, -⟩ := hI.geo.blocks.exists_tail
    obtain ⟨e, he', he8, hele, -⟩ := extendSize_spec hI.toRep h8 h32 fun b hb => hno b (by simp [hb])
    obtain rfl : allocSizeOf n - trailingFree s = e := he.symm.trans he'
    rw [align_eq (by omega)]
    omega
  -- `mem_sbrk` accepts
  have htop : s.memBrk ≤ s.memMaxAddr := by
    rw [hI.brk]
    exact hI.geo.top
  have hmax : s.memMaxAddr = s.arena.memStartBrk + maxHeap := rfl
  have hstart := s.arena.start_top
  have haligned := s.arena.start_aligned
  unfold SumFits at hwrap
  push Not at hwrap
  obtain ⟨h31, hne⟩ := hwrap
  have hsum : s.brkSum (growthOf s (allocSizeOf n)) < s.memBrk := by
    by_cases hexact : s.arena.exactBrk = true
    · exact absurd (brkSum_of_exact hexact _) hne
    · rw [State.brkSum, if_neg hexact, addSz] at hne ⊢
      omega
  have hsbrk : memSbrk s (toInt32 (growthOf s (allocSizeOf n))) =
      (s.memBrk, { s with memBrk := s.brkSum (growthOf s (allocSizeOf n)) }) := by
    unfold memSbrk toInt32
    rw [if_pos h31, Int.toNat_natCast, if_neg (by omega)]
  intro hgrows
  obtain ⟨bp, s₁, s', hext, -, -, hplace, -, hbrk, -⟩ := hgrows.granted (by
    rw [hsbrk]
    show s.memBrk ≠ sbrkFail
    unfold sbrkFail
    unfold maxHeap at *
    omega)
  have hbrk₁ := extendHeap_brk hext
  obtain ⟨m', -, rfl⟩ := Option.map_eq_some_iff.mp hplace
  change s₁.memBrk = s.memBrk + growthOf s (allocSizeOf n) at hbrk
  rw [hal] at hbrk₁
  change s₁.memBrk = (memSbrk s (toInt32 (growthOf s (allocSizeOf n)))).2.memBrk at hbrk₁
  rw [hsbrk] at hbrk₁
  exact hne (hbrk₁.symm.trans hbrk)

/-- **When nothing fits, `mm_malloc` grows the heap as it should iff the sum in `mem_sbrk` does not wrap.** -/
theorem Inv.grows_iff (hI : Inv s L F) (hn : n ≠ 0) (hno : ∀ b ∈ L, b.alloc = false → b.size < allocSizeOf n) :
    Grows s n ↔ MallocFits s n := by
  constructor
  · intro h
    by_contra hfits
    exact hI.not_grows hno (fun hsum => hfits (Or.inr (Or.inr hsum))) h
  · exact fun h => growth_spec hI hn hno (hI.growthFits h hn hno)

/-- **`mm_malloc` when a block fits**: the heap does not grow. -/
theorem mmMalloc_fits (hI : Inv s L F) (hn : n ≠ 0) {b : Block} (hb : b ∈ L) (hbf : b.alloc = false)
    (hle : allocSizeOf n ≤ b.size) : ∃ q s', mmMalloc s n = some (q, s') ∧ q ≠ null ∧
      s'.memBrk = s.memBrk ∧ s'.blockTail = s.blockTail := by
  obtain ⟨h16, h8, -⟩ := allocSizeOf_spec n
  obtain ⟨r, h1, h2⟩ := segregatedFindBestFit_spec hI.toRep h16
  rcases h2 with ⟨-, hno⟩ | ⟨hr, c, hc, hcf, rfl, hcle, -⟩
  · exact absurd hle (not_le.mpr (hno b hb hbf))
  · obtain ⟨m', L', F', t, h3, -⟩ := State.place_spec hI hc hcf h16 h8 hcle
    exact ⟨c.ptr, _, mmMalloc_of_fit hn h1 hr h3, hr, rfl, rfl⟩

/-- **`mm_realloc` that fails** leaves the block in use. -/
theorem realloc_null_spec {p t : ℕ} {s' : State} (hI : Inv s L F) (hu : Used L p t) (hn : n ≠ 0)
    (hfits : ReallocFits s p n) (hr : mmRealloc s p n = some (null, s')) : StillLive s s' p := by
  obtain ⟨r, s₁, L', F', v, h1, hI', -, -, h2⟩ := mmRealloc_spec hI hu hn hfits
  rw [hr] at h1
  obtain ⟨rfl, rfl⟩ := Prod.mk.inj (Option.some.inj h1)
  rcases h2 with ⟨-, hle, hused, hsame⟩ | ⟨hne, -⟩
  · have hu' : Used L' p v := (hused p v).mpr (Or.inr ⟨rfl, rfl⟩)
    have hsize := hI.blockSize_eq hu
    obtain ⟨b, hb, hba, hb16, rfl, rfl⟩ := hu'
    refine ⟨⟨_, heapWalk_eq hI', ?_⟩, ?_, ?_, ?_⟩
    · exact List.mem_cons_of_mem _ (List.mem_map_of_mem (hI'.geo.blocks.dropLast_iff.mpr ⟨hb, hb16⟩))
    · rw [hI'.getAlloc_eq hb, hba]
      rfl
    · rw [hsize, blockSize, hI'.getSize_eq hb]
      exact hle
    · rw [hsize]
      exact hsame
  · exact absurd rfl hne

end Growing

/-- **Growth and failure**, in every state of every run in which no sum wraps, and for every size for which `size + 11`
does not wrap.  The heap does not grow if a free block is large enough; otherwise, iff the sum in `mem_sbrk` does not
wrap, it grows by what the trailing free block lacks, or, when `mem_sbrk` refuses, nothing changes.  A `mm_realloc` that
returns `NULL` leaves its block live with its contents, in a reachable heap. -/
theorem malloc_growth (A : Arena) (w : World) (hw : (safeSystem A).Reach w) (n : ℕ) (hn : 0 < n)
    (h11 : n + 11 < 2 ^ 32) :
    allocSizeOf n = max ((n + 11) / 8 * 8) minBlockSize ∧
      (∃ bps, heapWalk w.st = some bps ∧ TrailingFreeOk w.st bps ∧
        ((∃ bp ∈ bps, Fits w.st (allocSizeOf n) bp) → ∃ q s', mmMalloc w.st n = some (q, s') ∧ q ≠ null ∧
          s'.memBrk = w.st.memBrk ∧ s'.blockTail = w.st.blockTail) ∧
        ((∀ bp ∈ bps, ¬ Fits w.st (allocSizeOf n) bp) → (Grows w.st n ↔ NoWrap w (.malloc n)))) ∧
      ∀ p ∈ w.live, NoWrap w (.realloc p n) → ∀ s', mmRealloc w.st p n = some (null, s') →
        StillLive w.st s' p ∧ (safeSystem A).Reach ⟨s', w.live⟩ ∧ mmCheckHeap s' minBlockSize = true := by
  have hn0 : n ≠ 0 := by omega
  have hinv := (safeSystem_invariant A).reach hw
  obtain ⟨rfl, L, F, hI, hH⟩ := hinv
  refine ⟨?_, ⟨_, heapWalk_eq hI, hI.trailingFree_ok, ?_, ?_⟩, ?_⟩
  · have hadd : addSz n 4 = n + 4 := Nat.mod_eq_of_lt (by omega)
    rw [allocSizeOf, hadd, align_eq (by omega)]
  · rintro ⟨bp, hbp, hfit⟩
    obtain ⟨b, hb, hbf, -, hle⟩ := (hI.fits_walk _ bp).mp ⟨hbp, hfit⟩
    exact mmMalloc_fits hI hn0 hb hbf hle
  · intro hno
    refine hI.grows_iff hn0 fun b hb hbf => ?_
    by_contra hle
    obtain ⟨hmem, hfit⟩ := (hI.fits_walk _ b.ptr).mpr ⟨b, hb, hbf, rfl, not_lt.mp hle⟩
    exact hno b.ptr hmem hfit
  · intro p hp hsafe s' hr
    obtain ⟨t, hu⟩ := (hH.mem p).mp hp
    have hlegal : (safeSystem w.st.arena).legal w (.realloc p n) := ⟨⟨Or.inr hp, by omega⟩, hsafe⟩
    have hexec : (safeSystem w.st.arena).exec w (.realloc p n) = some (null, ⟨s', w.live⟩) := by
      simp [mmSystem, System.restrict, exec, hr, hn0]
    have hreach := hw.step hlegal hexec
    obtain ⟨-, L', F', hI', -⟩ := (safeSystem_invariant w.st.arena).reach hreach
    exact ⟨realloc_null_spec hI hu hn0 hsafe hr, hreach, mmCheckHeap_eq hI'⟩

/-- With a live block between two free ones, of 104 and 16 bytes, a request for 90 bytes is served from the first, and
one for 200 bytes lets the heap grow by what the second lacks. -/
theorem malloc_growth_sample : ∃ w : World, w.live = [4216] ∧ growthOf w.st (allocSizeOf 200) = 192 ∧ Grows w.st 200 ∧
    ∃ q s', mmMalloc w.st 90 = some (q, s') ∧ q ≠ null ∧ s'.memBrk = w.st.memBrk := by
  obtain ⟨w, hw, hlive, hwalk, hgrowth, hsafe, hfit, hnofit⟩ := System.Reach.of_attempt (S := safeSystem sampleArena)
    [.malloc 100, .malloc 50, .malloc 8, .free 4112, .free 4272]
    (Q := fun w => w.live = [4216] ∧ heapWalk w.st = some [4104, 4112, 4216, 4272] ∧
      growthOf w.st (allocSizeOf 200) = 192 ∧ NoWrap w (.malloc 200) ∧ Fits w.st (allocSizeOf 90) 4112 ∧
      ¬ SomeFits w.st (allocSizeOf 200)) (startWorld_init _) (by decide +kernel)
  obtain ⟨-, ⟨bps, hbps, -, -, hgrows⟩, -⟩ := malloc_growth sampleArena w hw 200 (by decide) (by decide)
  obtain ⟨-, ⟨bps', hbps', -, hserved, -⟩, -⟩ := malloc_growth sampleArena w hw 90 (by decide) (by decide)
  rw [hwalk, Option.some.injEq] at hbps hbps'
  subst hbps hbps'
  obtain ⟨q, s', hm, hq, hbrk, -⟩ := hserved ⟨4112, by decide, hfit⟩
  have hno : ∀ bp ∈ [4104, 4112, 4216, 4272], ¬ Fits w.st (allocSizeOf 200) bp := fun bp hbp hf =>
    hnofit ⟨_, hwalk, bp, hbp, hf⟩
  exact ⟨w, hlive, hgrowth, (hgrows hno).mpr hsafe, q, s', hm, hq, hbrk⟩

/-- Right after `mm_init` nothing fits, and the request wraps. -/
theorem malloc_growth_wrap : (mmSystem wrapArena).Reach (startWorld wrapArena) ∧
    ¬ SomeFits (startWorld wrapArena).st (allocSizeOf 302301324) ∧ ¬ Grows (startWorld wrapArena).st 302301324 := by
  have hI : Inv (startWorld wrapArena).st _ _ := initialState_inv wrapArena fun _ => 0
  have hno : ∀ b ∈ [(⟨wrapArena.memStartBrk + 16, 0, true, true⟩ : Block)], b.alloc = false →
      b.size < allocSizeOf 302301324 := fun b hb hbf => by
    rw [List.mem_singleton.mp hb] at hbf
    cases hbf
  refine ⟨.init (startWorld_init _), fun hfit => ?_, fun hgrows => ?_⟩
  · obtain ⟨b, hb, hbf, hle⟩ := (hI.someFits_iff _).mp hfit
    exact absurd hle (not_le.mpr (hno b hb hbf))
  · have hfits := (hI.grows_iff (by decide) hno).mp hgrows
    exact absurd hfits (by decide +kernel)

end Csapp.Malloc
