import Csapp.Malloc.Run

/-!
# Malloc.Safety — what holds in every run of the allocator

* `mmCheckHeap_reach`: the heap checker of the source passes, and no call aborts.
* `freeLists_reach`: the ten lists hold exactly the free blocks of the heap walk, each in its class.
* `live_isolated`: live blocks are aligned, inside the heap, and apart from each other and from every
  word the allocator keeps.
* `payloads_kept`: a call changes no payload but that of its argument, and `mm_realloc` keeps the
  first bytes.
* `request_honoured_iff`: a size is honoured in all runs iff `size + 11` does not wrap.

The first is about an exact `mem_sbrk`, the others about runs in which `mem_brk + incr` does not wrap in 4 bytes.
Where it does, `mem_sbrk` moves `mem_brk` down and the block that is returned covers the free lists: the `_wrap`
theorems show what becomes of each of these properties in one such run.
-/

namespace Csapp.Malloc

open Csapp.Lib

/-! ## The walk over the heap -/

section Walk

variable {s : State} {L K : List Block} {F : Fin 10 → List ℕ} {p : ℕ} {pa : Bool}

/-- The assertions of the checker on one block and its successor. -/
theorem mmCheckBlock_eq {b n : Block} {P R : List Block} (hI : Inv s (P ++ b :: n :: R) F) :
    mmCheckBlock s minBlockSize b.ptr = true := by
  have hb : b ∈ P ++ b :: n :: R := by simp
  have hn : n ∈ P ++ b :: n :: R := by simp
  obtain ⟨hnext, hnp, -⟩ := hI.next_eq
  obtain ⟨q, qa, -, hB⟩ := hI.geo.blocks.split (List.cons_ne_nil _ _)
  obtain ⟨-, -, h16, -, -⟩ := hB.uncons
  have hhead : b.ptr ≠ s.blockHead := by
    have := (hI.geo.mem_in hb).lo; have := hI.head; omega
  have hftr : footerPtr s.mem b.ptr = b.ptr + b.size - 8 := by
    rw [footerPtr, hI.getSize_eq hb, hI.geo.addSz_eq hb]
  simp only [mmCheckBlock, if_pos hhead, hI.getSize_eq hb, hI.getAlloc_eq hb, hI.getPrevAlloc_eq hb,
    hnext, hI.getAlloc_eq hn, hI.getPrevAlloc_eq hn, hnp, hftr, hI.hdrs b hb]
  cases hbf : b.alloc with
  | true => simp [h16]
  | false =>
    have h1 := hI.ftrs b hb hbf
    have h2 := hI.coalesced b hb hbf
    have h3 := hI.alloc_behind hbf
    simp [h16, h1, h2, h3]

theorem mmCheckFrom_eq (hI : Inv s L F) (h : Blocks s.blockTail p pa K) :
    ∀ {P : List Block} {fuel : ℕ}, L = P ++ K → K.length ≤ fuel →
      mmCheckFrom s minBlockSize fuel p = true := by
  induction h with
  | tail pa =>
    intro P fuel hL hf
    obtain ⟨f, rfl⟩ : ∃ f, fuel = f + 1 := ⟨fuel - 1, by simp at hf; omega⟩
    have ht : (⟨s.blockTail, 0, pa, true⟩ : Block) ∈ L := by rw [hL]; simp
    have h1 := hI.getSize_eq ht
    have h2 := hI.getAlloc_eq ht
    simp only at h1 h2
    rw [mmCheckFrom, if_pos rfl, h1, h2]
    rfl
  | @cons p pa K size alloc h16 h8 hB ih =>
    intro P fuel hL hf
    obtain ⟨f, rfl⟩ : ∃ f, fuel = f + 1 := ⟨fuel - 1, by simp at hf; omega⟩
    obtain ⟨n, R, rfl⟩ := List.exists_cons_of_ne_nil hB.ne_nil
    subst hL
    have hne : p ≠ s.blockTail := by have := hB.le; omega
    have hnext : nextBlock s.mem p = p + size :=
      hI.nextBlock_eq (b := ⟨p, size, pa, alloc⟩) (by simp)
    have hblock : mmCheckBlock s minBlockSize p = true := mmCheckBlock_eq hI
    rw [mmCheckFrom, if_neg hne, hblock, Bool.true_and, hnext]
    exact ih (by simp : _ = (P ++ [⟨p, size, pa, alloc⟩]) ++ n :: R) (by simpa using hf)

theorem mmCheckHeap_eq (hI : Inv s L F) : mmCheckHeap s minBlockSize = true := by
  obtain ⟨h1, h2, h3, h4, h5⟩ := hI.head_eq
  obtain ⟨f, hf⟩ : ∃ f, walkFuel = f + 1 := ⟨walkFuel - 1, by omega⟩
  obtain ⟨b, R, hL⟩ := List.exists_cons_of_ne_nil hI.geo.blocks.ne_nil
  have hbp := hI.geo.blocks
  rw [hL] at hbp
  have hfirst : getPrevAlloc s.mem (headerPtr (s.arena.memStartBrk + 16)) = 1 := by
    rw [← hbp.head_eq.1, hI.getPrevAlloc_eq (by rw [hL]; simp), hbp.head_eq.2]
    rfl
  have hhead : mmCheckBlock s minBlockSize s.blockHead = true := by
    simp [mmCheckBlock, h2, h3, h4, hfirst]
  rw [mmCheckHeap, hf, mmCheckFrom, if_neg h1, hhead, Bool.true_and, h4]
  exact mmCheckFrom_eq (P := []) hI hI.geo.blocks rfl (by omega)

end Walk

/-- **The heap checker passes in every run** where `mem_sbrk` fails exactly when the heap would be too large, and the
next legal call does not abort. -/
theorem mmCheckHeap_reach (A : Arena) (hA : A.exactBrk = true) (w : World) (hw : (mmSystem A).Reach w) :
    mmCheckHeap w.st minBlockSize = true ∧
      ∀ c, Legal w c → ∃ r w', exec w c = some (r, w') ∧ mmCheckHeap w'.st minBlockSize = true := by
  have hinv := mmSystem_invariant hA
  have key : ∀ v, (mmSystem A).Reach v → mmCheckHeap v.st minBlockSize = true := fun v hv => by
    obtain ⟨-, L, F, hI, -⟩ := hinv.reach hv
    exact mmCheckHeap_eq hI
  refine ⟨key w hw, fun c hc => ?_⟩
  obtain ⟨r, w', he, hw'⟩ := hinv.progress hw hc
  exact ⟨r, w', he, key w' hw'⟩

/-! ## Sample runs -/

/-- The heap at `0x1000`, the list heads at `0x400`. -/
def sampleArena : Arena where
  memStartBrk := 0x1000
  segregatedFreeLists := 0x400
  exactBrk := false
  start_pos := by decide
  start_aligned := by decide
  start_top := by decide
  lists_pos := by decide
  lists_aligned := by decide
  lists_top := by decide
  apart := Or.inl (by decide)

/-- The world right after `mm_init`, over zeroed memory. -/
def startWorld (A : Arena) : World := ⟨initialState A fun _ => 0, []⟩

theorem startWorld_init (A : Arena) : (mmSystem A).init (startWorld A) := ⟨fun _ => 0, mmInit_eq _ _, rfl⟩

/-- Three blocks, of which the one in the middle is freed; a byte is written to the first. -/
def sampleRun : List Call := [.malloc 100, .malloc 50, .malloc 8, .write 4112 7, .free 4216]

/-- The world after `sampleRun`: two live blocks with a free block between them. -/
def Sampled (w : World) : Prop :=
  w.live = [4272, 4112] ∧ heapWalk w.st = some [4104, 4112, 4216, 4272] ∧
    getAlloc w.st.mem (headerPtr 4216) = 0 ∧ blockSize w.st 4112 = 104 ∧ blockSize w.st 4272 = 16

instance (w : World) : Decidable (Sampled w) := inferInstanceAs (Decidable (_ ∧ _))

/-- What evaluation says after `sampleRun`: no other block is free, and the first one can grow into the free one. -/
theorem sampleRun_reach : ∃ w, (safeSystem sampleArena).Reach w ∧ Sampled w ∧
    (blockSize w.st 4216 = 56 ∧ ∀ bp ∈ [4104, 4112, 4272], getAlloc w.st.mem (headerPtr bp) ≠ 0) ∧
    NoWrap w (.realloc 4112 150) ∧ w.st.mem 4112 = 7 ∧ (mmRealloc w.st 4112 150).map Prod.fst ≠ some null :=
  System.Reach.of_attempt (S := safeSystem sampleArena) sampleRun (startWorld_init _) (by decide +kernel)

theorem mmCheckHeap_reach_sample : ∃ w, Sampled w ∧ mmCheckHeap w.st minBlockSize = true := by
  obtain ⟨w, hw, hQ⟩ := System.Reach.of_attempt (S := mmSystem { sampleArena with exactBrk := true }) (Q := Sampled)
    sampleRun (startWorld_init _) (by decide +kernel)
  exact ⟨w, hQ, (mmCheckHeap_reach _ rfl w hw).1⟩

/-- An arena at the top of the address space. -/
def wrapArena : Arena where
  memStartBrk := 0xF6000008
  segregatedFreeLists := 0x0804C060
  exactBrk := false
  start_pos := by decide
  start_aligned := by decide
  start_top := by decide
  lists_pos := by decide
  lists_aligned := by decide
  lists_top := by decide
  apart := Or.inl (by decide)

/-- The second request wraps: `mem_sbrk` moves `mem_brk` down to the free lists, and the block covers them. -/
def wrapRun : List Call := [.malloc 8, .malloc 302301324, .free 0xF6000018]

/-- The client writes to that block. -/
def wrapWrites : List Call :=
  [.write 0x10804C064 0x60, .write 0x10804C065 0xC0, .write 0x10804C066 0x04, .write 0x10804C067 0x08]

/-! ## The free lists -/

section Lists

variable {s : State} {L : List Block} {F : Fin 10 → List ℕ}

/-- The pointers of the heap walk are distinct. -/
theorem Inv.walk_nodup (hI : Inv s L F) : (s.blockHead :: L.dropLast.map Block.ptr).Nodup := by
  refine List.nodup_cons.mpr ⟨fun hm => ?_, ?_⟩
  · obtain ⟨b, hb, hbp⟩ := List.mem_map.mp hm
    have := (hI.geo.mem_in (hI.geo.blocks.dropLast_iff.mp hb).1).lo
    have := hI.head
    omega
  · obtain ⟨mid, ta, rfl, hS⟩ := hI.geo.blocks.exists_tail
    rw [List.dropLast_concat]
    exact hS.ptr_nodup

theorem listWalk_eq (hI : Inv s L F) (i : Fin 10) :
    listWalk s.mem (listHead s.arena.segregatedFreeLists i) = some (F i) :=
  listWalkFrom_eq (hI.lists.path i) (hI.length_lt i)

/-- The members of the lists are the free blocks of the walk. -/
theorem Inv.mem_lists_iff (hI : Inv s L F) (a : ℕ) :
    (∃ i, a ∈ F i) ↔ a ∈ s.blockHead :: L.dropLast.map Block.ptr ∧ getAlloc s.mem (headerPtr a) = 0 := by
  constructor
  · rintro ⟨i, ha⟩
    obtain ⟨b, hb, hbf, rfl⟩ := hI.filed.nodesIn i a ha
    refine ⟨List.mem_cons_of_mem _ (List.mem_map_of_mem ?_), by rw [hI.getAlloc_eq hb, hbf]; rfl⟩
    exact hI.geo.blocks.dropLast_iff.mpr ⟨hb, hI.geo.blocks.free_size hb hbf⟩
  · rintro ⟨ha, h0⟩
    rcases List.mem_cons.mp ha with rfl | ha
    · rw [hI.head_eq.2.2.1] at h0
      exact absurd h0 (by omega)
    · obtain ⟨b, hb, rfl⟩ := List.mem_map.mp ha
      have hb := (hI.geo.blocks.dropLast_iff.mp hb).1
      rw [hI.getAlloc_eq hb] at h0
      have hbf : b.alloc = false := by
        cases hba : b.alloc with
        | true => rw [hba] at h0; exact absurd h0 (by simp)
        | false => rfl
      exact ⟨classOf b.size, (hI.filed _ _).mpr ⟨b, hb, hbf, rfl, rfl⟩⟩

theorem Inv.flat_nodup (hI : Inv s L F) : ((List.finRange 10).flatMap F).Nodup := by
  rw [List.nodup_flatMap]
  refine ⟨fun i _ => Rings.nodup hI.lists i, (List.nodup_finRange 10).imp fun {i j} hij a ha hb => ?_⟩
  exact hij (Rings.disj hI.lists i j a ha hb)

end Lists

/-- The ten lists agree with the heap: together they hold every unallocated block of the heap walk
once and nothing else, each block is in the list of its size, and all links are two-way. -/
def ListsAgree (A : Arena) (s : State) : Prop :=
  ∃ (bps : List ℕ) (F : Fin 10 → List ℕ), heapWalk s = some bps ∧ bps.Nodup ∧
    (∀ i : Fin 10, listWalk s.mem (listHead A.segregatedFreeLists i) = some (F i)) ∧
    ((List.finRange 10).flatMap F).Perm (bps.filter fun bp => getAlloc s.mem (headerPtr bp) = 0) ∧
    (∀ i, ∀ bp ∈ F i, segregatedFreeListLowerBound (blockSize s bp) = some (i : ℕ) ∧
      segregatedFreeListMinSize i ≤ blockSize s bp ∧ blockSize s bp ≤ segregatedFreeListMaxSize i) ∧
    ∀ i : Fin 10, ∀ fp ∈ listHead A.segregatedFreeLists i :: F i,
      nodeNext s.mem (nodePrev s.mem fp) = fp ∧ nodePrev s.mem (nodeNext s.mem fp) = fp

/-- **The ten lists agree with the heap** in every run in which no sum wraps. -/
theorem freeLists_reach (A : Arena) (w : World) (hw : (safeSystem A).Reach w) : ListsAgree A w.st := by
  obtain ⟨rfl, L, F, hI, -⟩ := (safeSystem_invariant A).reach hw
  refine ⟨_, F, heapWalk_eq hI, hI.walk_nodup, listWalk_eq hI, ?_, fun i bp hbp => ?_,
    fun i fp hfp => ?_⟩
  · refine (List.perm_ext_iff_of_nodup hI.flat_nodup (hI.walk_nodup.filter _)).mpr fun a => ?_
    simp only [List.mem_flatMap, List.mem_finRange, true_and, List.mem_filter, decide_eq_true_eq]
    exact hI.mem_lists_iff a
  · obtain ⟨b, hb, hbf, rfl, rfl⟩ := (hI.filed i bp).mp hbp
    have h16 := hI.geo.blocks.free_size hb hbf
    rw [blockSize, hI.getSize_eq hb]
    exact ⟨lowerBound_eq h16, sizeClass_bounds h16 (hI.geo.sizeOk hb).2⟩
  · obtain ⟨-, -, h1, h2⟩ := (Rings.ring hI.lists i).node_links hfp
    exact ⟨h2, h1⟩

/-- After `sampleRun` the block between the live ones is in the list of its size. -/
theorem freeLists_reach_sample : ∃ w, Sampled w ∧ ListsAgree sampleArena w.st := by
  obtain ⟨w, hw, hQ, -⟩ := sampleRun_reach
  exact ⟨w, hQ, freeLists_reach sampleArena w hw⟩

/-- The client writes the address of the first list head over its `next`, inside the payload of a block that wraps. -/
theorem freeLists_wrap : ∃ w, (mmSystem wrapArena).Reach w ∧ ¬ ListsAgree wrapArena w.st := by
  obtain ⟨w, hw, hnext, hprev⟩ := System.Reach.of_attempt (S := mmSystem wrapArena) (wrapRun ++ wrapWrites)
    (Q := fun w => nodeNext w.st.mem 0x0804C060 = 0x0804C060 ∧ nodePrev w.st.mem 0x0804C060 ≠ 0x0804C060)
    (startWorld_init _) (by decide +kernel)
  refine ⟨w, hw, ?_⟩
  rintro ⟨bps, F, -, -, -, -, -, hlinks⟩
  have h := (hlinks 0 _ List.mem_cons_self).2
  change nodePrev w.st.mem (nodeNext w.st.mem 0x0804C060) = 0x0804C060 at h
  rw [hnext] at h
  exact hprev h

/-! ## Isolation -/

/-- The `n` bytes at `a` and the `k` bytes at `b` are disjoint. -/
def Apart (a n b k : ℕ) : Prop := a + n ≤ b ∨ b + k ≤ a

section Isolation

variable {s : State} {L : List Block} {F : Fin 10 → List ℕ} {p t : ℕ}

theorem Inv.blockSize_eq (hI : Inv s L F) (hu : Used L p t) : blockSize s p = t := by
  obtain ⟨b, hb, -, -, rfl, rfl⟩ := hu
  exact hI.getSize_eq hb

/-- Allocator bytes and payloads are apart, interval by interval. -/
theorem Inv.apart_owned (hI : Inv s L F) (hu : Used L p t) {a k : ℕ}
    (ho : ∀ y, a ≤ y → y < a + k → Owned L y) (hk : 0 < k) : Apart p (t - 4) a k := by
  have h16 : 16 ≤ t := by obtain ⟨b, -, -, h16, -, rfl⟩ := hu; exact h16
  by_contra hc
  unfold Apart at hc
  have := hI.geo.blocks.not_owned (hu.client (y := max p a) (by omega) (by omega))
  exact this (ho _ (by omega) (by omega))

end Isolation

/-- Isolation of live blocks: a live pointer is aligned, its payload lies between `block_head` and
`block_tail`, and it is apart from the other live payloads and from every header, every link word
(list heads included) and every footer. -/
def LiveIsolated (A : Arena) (w : World) : Prop :=
  ∃ (bps : List ℕ) (F : Fin 10 → List ℕ), heapWalk w.st = some bps ∧
    (∀ i : Fin 10, listWalk w.st.mem (listHead A.segregatedFreeLists i) = some (F i)) ∧
    w.live.Nodup ∧ ∀ p ∈ w.live, p ∈ bps ∧ p % 8 = 0 ∧
      w.st.blockHead < p ∧ p + (blockSize w.st p - 4) ≤ w.st.blockTail ∧
      (∀ q ∈ w.live, q ≠ p → Apart p (blockSize w.st p - 4) q (blockSize w.st q - 4)) ∧
      (∀ bp ∈ bps ++ [w.st.blockTail], Apart p (blockSize w.st p - 4) (headerPtr bp) 4) ∧
      (∀ i : Fin 10, ∀ fp ∈ listHead A.segregatedFreeLists i :: F i, Apart p (blockSize w.st p - 4) fp 8) ∧
      ∀ bp ∈ bps, getAlloc w.st.mem (headerPtr bp) = 0 →
        Apart p (blockSize w.st p - 4) (footerPtr w.st.mem bp) 4

/-- **Live blocks are isolated** in every run in which no sum wraps. -/
theorem live_isolated (A : Arena) (w : World) (hw : (safeSystem A).Reach w) : LiveIsolated A w := by
  obtain ⟨rfl, L, F, hI, hH⟩ := (safeSystem_invariant A).reach hw
  refine ⟨_, F, heapWalk_eq hI, listWalk_eq hI, hH.nodup, fun p hp => ?_⟩
  obtain ⟨t, hu⟩ := (hH.mem p).mp hp
  rw [hI.blockSize_eq hu]
  have hin : p % 8 = 0 ∧ w.st.arena.memStartBrk + 16 ≤ p ∧ p + t ≤ w.st.blockTail ∧ 16 ≤ t ∧
      p ∈ L.dropLast.map Block.ptr := by
    obtain ⟨b, hb, -, h16, rfl, rfl⟩ := hu
    exact ⟨hI.geo.ptr_aligned hb, (hI.geo.mem_in hb).lo, (hI.geo.mem_in hb).top, h16,
      List.mem_map_of_mem (hI.geo.blocks.dropLast_iff.mpr ⟨hb, h16⟩)⟩
  obtain ⟨h8, hlo, htop, h16, hmem⟩ := hin
  have hhead := hI.head
  have hbrk := hI.geo.top
  refine ⟨List.mem_cons_of_mem _ hmem, h8, by omega, by omega, fun q hq hne => ?_, fun bp hbp => ?_,
    fun i fp hfp => ?_, fun bp hbp hfree => ?_⟩
  · obtain ⟨t', hu'⟩ := (hH.mem q).mp hq
    rw [hI.blockSize_eq hu']
    have := hI.geo.used_disjoint hu hu' (Ne.symm hne)
    unfold Apart
    omega
  · -- headers: of the head block, of the walk, of the tail
    have hhdr : ∀ b ∈ L, Apart p (t - 4) (headerPtr b.ptr) 4 := fun b hb => by
      refine hI.apart_owned hu (fun y h1 h2 => ⟨b, hb, Or.inl ?_⟩) (by omega)
      have := hI.geo.ptr_pos hb
      unfold headerPtr at h1 h2
      omega
    simp only [List.cons_append, List.mem_cons, List.mem_append, List.not_mem_nil, or_false] at hbp
    rcases hbp with rfl | hbp | rfl
    · unfold Apart headerPtr; omega
    · obtain ⟨b, hb, rfl⟩ := List.mem_map.mp hbp
      exact hhdr b (hI.geo.blocks.dropLast_iff.mp hb).1
    · obtain ⟨mid, ta, rfl, -⟩ := hI.geo.blocks.exists_tail
      exact hhdr ⟨w.st.blockTail, 0, ta, true⟩ (by simp)
  · rcases List.mem_cons.mp hfp with rfl | hfp
    · have := headOf_outside w.st.arena i
      unfold headOf at this
      unfold Apart
      omega
    · obtain ⟨b, hb, hbf, rfl⟩ := hI.filed.nodesIn i fp hfp
      have := hI.geo.blocks.free_size hb hbf
      exact hI.apart_owned hu (fun y h1 h2 => ⟨b, hb, Or.inr ⟨hbf, h1, by omega⟩⟩) (by omega)
  · obtain ⟨i, hi⟩ := (hI.mem_lists_iff bp).mpr ⟨hbp, hfree⟩
    obtain ⟨b, hb, hbf, rfl⟩ := hI.filed.nodesIn i bp hi
    have := hI.geo.blocks.free_size hb hbf
    rw [footerPtr, hI.getSize_eq hb, hI.geo.addSz_eq hb]
    exact hI.apart_owned hu (fun y h1 h2 => ⟨b, hb, Or.inr ⟨hbf, by omega, by omega⟩⟩) (by omega)

/-- After `sampleRun` the two live payloads are apart. -/
theorem live_isolated_sample : ∃ w, Sampled w ∧ LiveIsolated sampleArena w ∧ Apart 4112 100 4272 12 := by
  obtain ⟨w, hw, hQ, -⟩ := sampleRun_reach
  have hiso := live_isolated sampleArena w hw
  obtain ⟨hlive, -, -, hp, hq⟩ := id hQ
  obtain ⟨bps, F, -, -, -, h⟩ := id hiso
  obtain ⟨-, -, -, -, hapart, -⟩ := h 4112 (by rw [hlive]; decide)
  have h := hapart 4272 (by rw [hlive]; decide) (by decide)
  rw [hp, hq] at h
  exact ⟨w, hQ, hiso, h⟩

/-- The block that wraps is live and does not end below `block_tail`. -/
theorem live_isolated_wrap : ∃ w, (mmSystem wrapArena).Reach w ∧ ¬ LiveIsolated wrapArena w := by
  obtain ⟨w, hw, hlive, htail⟩ := System.Reach.of_attempt (S := mmSystem wrapArena) wrapRun
    (Q := fun w => 0xF6000028 ∈ w.live ∧ w.st.blockTail < 0xF6000028) (startWorld_init _) (by decide +kernel)
  refine ⟨w, hw, ?_⟩
  rintro ⟨bps, F, -, -, -, h⟩
  obtain ⟨-, -, -, hle, -⟩ := h _ hlive
  omega

/-! ## Payloads -/

/-- The block a call is about. -/
def Call.arg : Call → ℕ
  | .malloc _ => null
  | .free ptr => ptr
  | .realloc ptr _ => ptr
  | .write _ _ => null

/-- The call is one of the three functions of the allocator. -/
def Call.isAllocator : Call → Bool
  | .write _ _ => false
  | _ => true

section Payloads

variable {A : Arena} {w : World} {L : List Block} {F : Fin 10 → List ℕ}

/-- A call keeps the payloads of all blocks in use but its argument. -/
theorem exec_keeps (hI : Inv w.st L F) (hH : Holds w.live L) {c : Call} (hc : Legal w c) (hsafe : NoWrap w c)
    (ha : c.isAllocator = true) : ∃ r w', exec w c = some (r, w') ∧
      ∀ p t, Used L p t → p ≠ c.arg → SameAt w.st.mem w'.st.mem p (t - 4) := by
  have hmalloc : ∀ n, MallocFits w.st n → ∃ q st, mmMalloc w.st n = some (q, st) ∧
      ∀ p t, Used L p t → SameAt w.st.mem st.mem p (t - 4) := fun n hfits => by
    rcases mmMalloc_spec hI n hfits with ⟨hm, -⟩ | ⟨r, s', -, -, -, hm, -, -, -, -, -, -, -, hk⟩
    · exact ⟨null, w.st, hm, fun _ _ _ _ _ _ => rfl⟩
    · exact ⟨r, s', hm, hk⟩
  have hfree : ∀ q, q = null ∨ q ∈ w.live → ∃ st, mmFree w.st q = some st ∧
      ∀ p t, Used L p t → p ≠ q → SameAt w.st.mem st.mem p (t - 4) := fun q hq => by
    rcases hq with rfl | hq
    · exact ⟨w.st, rfl, fun _ _ _ _ _ _ _ => rfl⟩
    · obtain ⟨u, hu⟩ := (hH.mem q).mp hq
      obtain ⟨m', -, -, hm, -, -, hk⟩ := mmFree_spec hI hu
      exact ⟨_, hm, hk⟩
  cases c with
  | malloc n =>
    obtain ⟨q, st, hm, hk⟩ := hmalloc n hsafe
    exact ⟨q, ⟨st, hold q w.live⟩, by simp [exec, hm], fun p t hu _ => hk p t hu⟩
  | free q =>
    obtain ⟨st, hm, hk⟩ := hfree q hc
    exact ⟨null, ⟨st, w.live.erase q⟩, by simp [exec, hm], hk⟩
  | realloc q n =>
    obtain ⟨r, st, hm, hk⟩ : ∃ r st, mmRealloc w.st q n = some (r, st) ∧
        ∀ p t, Used L p t → p ≠ q → SameAt w.st.mem st.mem p (t - 4) := by
      by_cases hq0 : q = null
      · change ReallocFits w.st q n at hsafe
        rw [ReallocFits, if_pos hq0] at hsafe
        obtain ⟨r, st, hm, hk⟩ := hmalloc n hsafe
        exact ⟨r, st, by rw [mmRealloc, if_pos hq0, hm], fun p t hu _ => hk p t hu⟩
      · by_cases hn : n = 0
        · obtain ⟨st, hm, hk⟩ := hfree q hc.1
          exact ⟨null, st, by rw [mmRealloc, if_neg hq0, if_pos hn, hm]; rfl, hk⟩
        · obtain ⟨u, hu⟩ := (hH.mem q).mp (hc.1.resolve_left hq0)
          obtain ⟨r, st, -, -, -, hm, -, -, hk, -⟩ := mmRealloc_spec hI hu hn hsafe
          exact ⟨r, st, hm, hk⟩
    exact ⟨r, ⟨st, _⟩, by simp only [exec, hm, Option.bind_eq_bind, Option.bind_some]; rfl, hk⟩
  | write a v => exact absurd ha (by simp [Call.isAllocator])

end Payloads

/-- The call leaves the payload of every live block but its argument as it was; addresses are 32-bit. -/
def KeepsPayloads (w : World) (c : Call) : Prop :=
  ∃ r w', exec w c = some (r, w') ∧ ∀ p ∈ w.live, p ≠ c.arg → ∀ i < blockSize w.st p - 4,
    w'.st.mem (addSz p i) = w.st.mem (addSz p i)

/-- A block that `mm_realloc(p, n)` returns has the first bytes of the old payload. -/
def CopiesPayload (w : World) (p n : ℕ) : Prop :=
  ∃ q st, mmRealloc w.st p n = some (q, st) ∧
    (q ≠ null → ∀ i < min (blockSize w.st p - 4) n, st.mem (addSz q i) = w.st.mem (addSz p i))

/-- The bytes of a block in use have their own addresses. -/
theorem Inv.addSz_used {s : State} {p t i : ℕ} (hI : Inv s L F) (hu : Used L p t) (hi : i < t) :
    addSz p i = p + i := by
  obtain ⟨b, hb, -, -, rfl, rfl⟩ := hu
  have h1 := (hI.geo.mem_in hb).top
  have h2 := hI.geo.top
  have h3 := s.arena.start_top
  exact Nat.mod_eq_of_lt (by omega)

/-- **Payloads are kept** in every run in which no sum wraps: each call keeps the payloads of the other live blocks,
and `mm_realloc` to a positive size for which `size + 11` does not wrap copies or keeps the first bytes. -/
theorem payloads_kept (A : Arena) (w : World) (hw : (safeSystem A).Reach w) :
    (∀ c, Legal w c → NoWrap w c → c.isAllocator = true → KeepsPayloads w c) ∧
      ∀ p ∈ w.live, ∀ n, 0 < n → n + 11 < 2 ^ 32 → NoWrap w (.realloc p n) → CopiesPayload w p n := by
  obtain ⟨rfl, L, F, hI, hH⟩ := (safeSystem_invariant A).reach hw
  refine ⟨fun c hc hsafe ha => ?_, fun p hp n hn h11 hsafe => ?_⟩
  · obtain ⟨r, w', he, hk⟩ := exec_keeps hI hH hc hsafe ha
    refine ⟨r, w', he, fun p hp hne i hi => ?_⟩
    obtain ⟨t, hu⟩ := (hH.mem p).mp hp
    rw [hI.blockSize_eq hu] at hi
    rw [hI.addSz_used hu (by omega)]
    exact hk p t hu hne _ (by omega) (by omega)
  · obtain ⟨t, hu⟩ := (hH.mem p).mp hp
    obtain ⟨r, st, L', F', v, hm, hI', -, -, hres⟩ := mmRealloc_spec hI hu (by omega) hsafe
    refine ⟨r, st, hm, fun hr i hi => ?_⟩
    rw [hI.blockSize_eq hu] at hi
    rcases hres with ⟨rfl, -⟩ | ⟨-, -, hv, hused, hcopy⟩
    · exact absurd rfl hr
    · have := le_allocSizeOf h11
      rw [hI.addSz_used hu (by omega), hI'.addSz_used ((hused r v).mpr (Or.inr ⟨rfl, rfl⟩)) (by omega)]
      exact hcopy i (by omega) (by omega) (by omega)

/-- After `sampleRun` the first block grows into the free block behind it and keeps the byte written to it; the other
live block is not touched. -/
theorem payloads_kept_sample : ∃ w, Sampled w ∧ KeepsPayloads w (.realloc 4112 150) ∧
    ∃ q st, mmRealloc w.st 4112 150 = some (q, st) ∧ q ≠ null ∧ st.mem (addSz q 0) = 7 := by
  obtain ⟨w, hw, hQ, -, hsafe, hbyte, hne⟩ := sampleRun_reach
  obtain ⟨hkeep, hcopy⟩ := payloads_kept sampleArena w hw
  obtain ⟨hlive, -, -, hsize, -⟩ := id hQ
  have hmem : 4112 ∈ w.live := by rw [hlive]; decide
  obtain ⟨q, st, hm, hbytes⟩ := hcopy 4112 hmem 150 (by decide) (by decide) hsafe
  have hq : q ≠ null := fun h => hne (by rw [hm, h]; rfl)
  refine ⟨w, hQ, hkeep _ ⟨Or.inr hmem, by decide⟩ hsafe rfl, q, st, hm, hq, ?_⟩
  rw [hbytes hq 0 (by rw [hsize]; decide)]
  exact hbyte

/-- The next `mm_free` writes to the first list head, inside the payload of the block that wraps. -/
theorem payloads_wrap :
    ∃ w c, (mmSystem wrapArena).Reach w ∧ Legal w c ∧ c.isAllocator = true ∧ ¬ KeepsPayloads w c := by
  obtain ⟨w, hw, hlive, hsize, hbyte⟩ := System.Reach.of_attempt (S := mmSystem wrapArena)
    wrapRun.dropLast (Q := fun w => w.live = [0xF6000028, 0xF6000018] ∧ blockSize w.st 0xF6000028 = 302301328 ∧
      (exec w (.free 0xF6000018)).map (fun x => x.2.st.mem 0x0804C064) ≠ some (w.st.mem 0x0804C064))
    (startWorld_init _) (by decide +kernel)
  refine ⟨w, .free 0xF6000018, hw, Or.inr (by rw [hlive]; decide), rfl, ?_⟩
  rintro ⟨r, w', he, h⟩
  have h := h 0xF6000028 (by rw [hlive]; decide) (by decide) (0x10804C064 - 0xF6000028) (by rw [hsize]; decide)
  rw [he] at hbyte
  exact hbyte (congrArg some h)

/-! ## Sizes -/

/-- In world `w`, whatever block `mm_malloc` or `mm_realloc` returns for size `n` has `n` payload
bytes, where no sum in `mem_sbrk` wraps. -/
def Honoured (n : ℕ) (w : World) : Prop :=
  (∀ q st, NoWrap w (.malloc n) → mmMalloc w.st n = some (q, st) → q ≠ null → n ≤ blockSize st q - 4) ∧
    ∀ p ∈ w.live, ∀ q st, NoWrap w (.realloc p n) → mmRealloc w.st p n = some (q, st) → q ≠ null →
      n ≤ blockSize st q - 4

/-- A size whose sum with header and rounding does not wrap is honoured. -/
theorem honoured_of_lt {A : Arena} {w : World} (hw : (safeSystem A).Reach w) {n : ℕ} (hn : 0 < n)
    (h11 : n + 11 < 2 ^ 32) : Honoured n w := by
  obtain ⟨rfl, L, F, hI, hH⟩ := (safeSystem_invariant A).reach hw
  have hle := le_allocSizeOf h11
  refine ⟨fun q st hsafe hm hq => ?_, fun p hp q st hsafe hm hq => ?_⟩
  · rcases mmMalloc_spec hI n hsafe with ⟨hm', -⟩ | ⟨r, s', L', F', t, hm', -, -, hI', -, ht, -, hus, -⟩
    · rw [hm] at hm'
      exact absurd (Prod.mk.inj (Option.some.inj hm')).1 hq
    · rw [hm] at hm'
      obtain ⟨rfl, rfl⟩ := Prod.mk.inj (Option.some.inj hm')
      rw [hI'.blockSize_eq ((hus q t).mpr (Or.inr ⟨rfl, rfl⟩))]
      omega
  · obtain ⟨t, hu⟩ := (hH.mem p).mp hp
    obtain ⟨r, s', L', F', v, hm', hI', -, -, hres⟩ := mmRealloc_spec hI hu (by omega : n ≠ 0) hsafe
    rw [hm] at hm'
    obtain ⟨rfl, rfl⟩ := Prod.mk.inj (Option.some.inj hm')
    rcases hres with ⟨rfl, -⟩ | ⟨-, -, hv, hus, -⟩
    · exact absurd rfl hq
    · rw [hI'.blockSize_eq ((hus q v).mpr (Or.inr ⟨rfl, rfl⟩))]
      omega

/-- Right after `mm_init` a request for the smallest block succeeds. -/
theorem mmMalloc_initial (A : Arena) (m : Mem) {n : ℕ} (hn : n ≠ 0) (hs : allocSizeOf n = 16) :
    MallocFits (initialState A m) n ∧ ∃ q st L F t, mmMalloc (initialState A m) n = some (q, st) ∧ q ≠ null ∧
      Inv st L F ∧ st.arena = A ∧ Used L q t := by
  have hfits : MallocFits (initialState A m) n := by
    refine Or.inr (Or.inr (Or.inr (brkSum_of_lt ?_)))
    have hgrowth : growthOf (initialState A m) (allocSizeOf n) ≤ 16 := by
      rw [hs]
      exact max_le (Nat.sub_le _ _) le_rfl
    have htop := A.start_top
    show A.memStartBrk + 16 + _ < 2 ^ 32
    unfold maxHeap at htop
    omega
  refine ⟨hfits, ?_⟩
  rcases mmMalloc_spec (initialState_inv A m) n hfits with
    ⟨-, hwhy⟩ | ⟨r, s', L', F', t, hm, hr, -, hI, ha, -, -, hus, -⟩
  · have hroom : (initialState A m).blockTail + 16 ≤ (initialState A m).memMaxAddr := by
      simp only [initialState, State.memMaxAddr]
      unfold maxHeap
      omega
    rw [hs] at hwhy
    omega
  · exact ⟨r, s', L', F', t, hm, hr, hI, ha, (hus r t).mpr (Or.inr ⟨rfl, rfl⟩)⟩

/-- A size that wraps is not honoured right after `mm_init`: a block of 16 bytes is returned. -/
theorem not_honoured_initial (A : Arena) (m : Mem) {n : ℕ} (h11 : 2 ^ 32 ≤ n + 11) (h32 : n < 2 ^ 32) :
    ¬ Honoured n ⟨initialState A m, []⟩ := by
  obtain ⟨hfits, q, st, L, F, t, hm, hq, hI, rfl, hu⟩ :=
    mmMalloc_initial A m (by omega : n ≠ 0) (allocSizeOf_wrap h11 h32)
  rintro ⟨h, -⟩
  have h := h q st hfits hm hq
  rw [hI.blockSize_eq hu] at h
  -- no block is larger than the heap
  obtain ⟨b, hb, -, -, rfl, rfl⟩ := hu
  have := (hI.geo.mem_in hb).top; have := (hI.geo.mem_in hb).lo; have := hI.geo.top
  unfold maxHeap at *
  omega

/-- **A size is honoured in all runs, in which no sum in `mem_sbrk` wraps, iff `size + 11` does not wrap.** -/
theorem request_honoured_iff (A : Arena) (n : ℕ) (hn : 0 < n) (h32 : n < 2 ^ 32) :
    (∀ w, (safeSystem A).Reach w → Honoured n w) ↔ n + 11 < 2 ^ 32 := by
  constructor
  · intro h
    by_contra hc
    exact not_honoured_initial A (fun _ => 0) (by omega) h32 (h _ (.init (startWorld_init A)))
  · exact fun h11 w hw => honoured_of_lt hw hn h11

theorem request_honoured_iff_sample :
    (∀ w, (safeSystem sampleArena).Reach w → Honoured 100 w) ↔ 100 + 11 < 2 ^ 32 :=
  request_honoured_iff sampleArena 100 (by omega) (by omega)

/-- `mm_malloc(0xFFFFFFFC)` after `mm_init` returns a block that is too small. -/
theorem not_honoured_sample : (safeSystem sampleArena).Reach (startWorld sampleArena) ∧
    ¬ Honoured 0xFFFFFFFC (startWorld sampleArena) :=
  ⟨.init (startWorld_init _), not_honoured_initial sampleArena (fun _ => 0) (by omega) (by omega)⟩

end Csapp.Malloc
