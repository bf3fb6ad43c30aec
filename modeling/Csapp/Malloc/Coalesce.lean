import Csapp.Malloc.Invariant
import Mathlib.Data.List.Nodup

/-!
# Malloc.Coalesce — merging free neighbours

`coalesce_spec`: let the free block `b` stand in the run `X = ps ++ b :: ns` of free blocks, where
`ps` is the free block in front of it, if there is one, and `ns` the free block behind it.  Then
`coalesce` replaces `X` by one free block with the bytes of `X`, filed under its new size.  The footer
of the block behind `b` is not read, so it need not be right when `coalesce` is called (`do_mm_free`
has just cleared the `prev_alloc` bit of that block's header).
-/

namespace Csapp.Malloc

open Csapp.Lib

variable {A : Arena} {hi q q' : ℕ} {P X R L K : List Block} {F : Fin 10 → List ℕ} {m : Mem}

/-! ## The merged block -/

/-- The free block with the bytes from `q - 4` to `q' - 4`. -/
def mergedBlock (q q' : ℕ) : Block := ⟨q, q' - q, true, false⟩

/-- Every byte between the first header and the end of a run of free blocks is the allocator's. -/
theorem Seg.owned {pa qa : Bool} (hX : Seg q pa X q' qa) (hXf : ∀ b ∈ X, b.alloc = false) {y : ℕ}
    (h1 : q ≤ y) (h2 : y + 4 < q') : Owned X y := by
  induction hX with
  | nil => omega
  | @cons p q pa qa X size alloc h16 h8 hs ih =>
    have hbf : alloc = false := hXf _ List.mem_cons_self
    by_cases hin : y + 4 < p + size
    · exact ⟨_, List.mem_cons_self, Or.inr ⟨hbf, h1, hin⟩⟩
    · by_cases hy : p + size ≤ y
      · obtain ⟨b, hb, h3⟩ := ih (fun b hb => hXf b (List.mem_cons_of_mem _ hb)) hy h2
        exact ⟨b, List.mem_cons_of_mem _ hb, h3⟩
      · -- the header of the next block of the run
        cases hs with
        | nil => omega
        | cons size' alloc' _ _ _ =>
          exact ⟨_, List.mem_cons_of_mem _ List.mem_cons_self, Or.inl ⟨by simp; omega, by simp; omega⟩⟩

/-- A run that starts behind an allocated block and ends with a free one is not empty. -/
theorem Seg.ne_nil (hX : Seg q true X q' false) : X ≠ [] := by
  cases hX; simp

theorem merge_size (hX : Seg q true X q' false) :
    16 ≤ q' - q ∧ (q' - q) % 8 = 0 ∧ q + (q' - q) = q' := by
  have h1 := hX.le
  have h2 := hX.aligned
  cases hX with
  | cons size alloc h16 h8 hs =>
    have := hs.le
    omega

section Merge

variable (hP : Seg (A.memStartBrk + 16) true P q true) (hX : Seg q true X q' false)
  (hXf : ∀ b ∈ X, b.alloc = false) (hR : Blocks hi q' false R)
  (htop : hi ≤ A.memStartBrk + maxHeap)
include hP hX hR htop

theorem merge_geo : Geo A hi (P ++ X ++ R) ∧ Geo A hi (P ++ [mergedBlock q q'] ++ R) := by
  obtain ⟨h1, h2, h3⟩ := merge_size hX
  refine ⟨⟨(hP.append hX).append_blocks hR, htop⟩, ⟨?_, htop⟩⟩
  refine (hP.append (.cons (q' - q) false h1 h2 ?_)).append_blocks hR
  rw [h3]
  exact .nil _ _

omit hP hR htop in
include hXf in
theorem merge_metaIn : MetaIn (P ++ [mergedBlock q q'] ++ R) (P ++ X ++ R) := by
  obtain ⟨h1, h2, h3⟩ := merge_size hX
  intro b hb
  simp only [List.mem_append, List.mem_singleton] at hb
  rcases hb with (hb | rfl) | hb
  · exact MetaIn.refl _ b (by simp [hb])
  · -- the header of the first and the footer of the last block of `X`
    obtain ⟨a, X', rfl⟩ := List.exists_cons_of_ne_nil hX.ne_nil
    refine ⟨⟨a, by simp, ?_⟩, fun _ => ?_⟩
    · cases hX; rfl
    · obtain ⟨K, z, hK⟩ : ∃ K z, a :: X' = K ++ [z] := by
        rcases List.eq_nil_or_concat' (a :: X') with h | ⟨K, z, h⟩
        · exact absurd h hX.ne_nil
        · exact ⟨K, z, h⟩
      have hz : z ∈ a :: X' := by rw [hK]; simp
      refine ⟨z, List.mem_append_left _ (List.mem_append_right _ hz), hXf z hz, ?_⟩
      rw [hK] at hX
      simp only [mergedBlock]
      rw [hX.last.2]
      omega
  · exact MetaIn.refl _ b (by simp [hb])

omit hP hR htop in
include hXf in
/-- The merged block has no bytes that were not the allocator's. -/
theorem merge_owned {y : ℕ} (hy : Owned (P ++ [mergedBlock q q'] ++ R) y) : Owned (P ++ X ++ R) y := by
  obtain ⟨h1, h2, h3⟩ := merge_size hX
  obtain ⟨b, hb, hy⟩ := hy
  simp only [List.mem_append, List.mem_singleton] at hb
  rcases hb with (hb | rfl) | hb
  · exact ⟨b, by simp [hb], hy⟩
  · rcases hy with hy | ⟨-, hy⟩
    · obtain ⟨a, X', rfl⟩ := List.exists_cons_of_ne_nil hX.ne_nil
      have hap : a.ptr = q := by cases hX; rfl
      exact ⟨a, by simp, Or.inl (by rw [hap]; exact hy)⟩
    · simp only [mergedBlock] at hy
      obtain ⟨b, hb, h4⟩ := hX.owned hXf (y := y) (by omega) (by omega)
      exact ⟨b, by simp [hb], h4⟩
  · exact ⟨b, by simp [hb], hy⟩

include hXf in
/-- Writing header and footer of the merged block. -/
theorem merge_write (hH : Hdrs m (P ++ X ++ R)) (hFt : Ftrs m (P ++ R)) (hF : FreeLists A m F)
    (hN : NodesIn (P ++ X ++ R) F) :
    Hdrs (syncFooter (setMeta m (headerPtr q) (q' - q) 1 0) q) (P ++ [mergedBlock q q'] ++ R) ∧
      Ftrs (syncFooter (setMeta m (headerPtr q) (q' - q) 1 0) q) (P ++ [mergedBlock q q'] ++ R) ∧
      FreeLists A (syncFooter (setMeta m (headerPtr q) (q' - q) 1 0) q) F ∧
      Frame A (P ++ X ++ R) m (syncFooter (setMeta m (headerPtr q) (q' - q) 1 0) q) := by
  obtain ⟨hg0, hg1⟩ := merge_geo hP hX hR htop
  have hmi := merge_metaIn (P := P) (R := R) hX hXf
  obtain ⟨h16, -, -⟩ := merge_size hX
  have hM : mergedBlock q q' ∈ P ++ [mergedBlock q q'] ++ R := by simp
  have hw := setMeta_syncFooter (m := m) (b := mergedBlock q q') (hg1.sizeOk hM) (hg1.addSz_eq hM) rfl
  have hw' : syncFooter (setMeta m (headerPtr q) (q' - q) 1 0) q =
      store32 (store32 m (headerPtr q) (mergedBlock q q').word) (q + (q' - q) - 8)
        (mergedBlock q q').word := hw
  rw [hw']
  have hne : ∀ c ∈ P ++ [mergedBlock q q'] ++ R, c ≠ mergedBlock q q' → c ∈ P ∨ c ∈ R := by
    intro c hc hne
    simp only [List.mem_append, List.mem_singleton] at hc
    tauto
  obtain ⟨h1, h2⟩ := hg1.store_free (m := m) hM rfl
    (fun c hc hcm => hH c (by have := hne c hc hcm; simp only [List.mem_append]; tauto))
    (fun c hc hcm hcf => hFt c (by have := hne c hc hcm; simp only [List.mem_append]; tauto) hcf)
  obtain ⟨⟨c, hc, hcp⟩, hd⟩ := hmi _ hM
  obtain ⟨d, hd, hdf, hde⟩ := hd rfl
  have e1 : headerPtr q = headerPtr c.ptr := by rw [hcp]; rfl
  have e2 : q + (q' - q) - 8 = d.ptr + d.size - 8 := by rw [hde]; rfl
  have hd16 := hg0.blocks.free_size hd hdf
  refine ⟨h1, h2, ?_, ?_⟩
  · rw [e1, e2]
    exact hg0.lists_ftr hN (hg0.lists_hdr hN hF hc _) hd hdf _
  · rw [e1, e2]
    exact (Frame.store_hdr A hc (by have := hg0.ptr_pos hc; omega) _).trans
      (Frame.store_free A hd hdf _ (by omega) (by omega))

end Merge

/-! ## Erasing several members -/

/-- `free_list_erase` of the pointers `es`, one after the other. -/
theorem Geo.erases_spec (hg : Geo A hi L) (hKL : MetaIn K L) : ∀ {es : List ℕ} {F : Fin 10 → List ℕ}
    {m : Mem}, NodesIn L F → FreeLists A m F → (∀ x ∈ es, ∃ i, x ∈ F i) → es.Nodup → Hdrs m K →
    Ftrs m K →
    FreeLists A (es.foldl segregatedFreeListErase m) (fun j => (F j).diff es) ∧
      Frame A L m (es.foldl segregatedFreeListErase m) ∧
      Hdrs (es.foldl segregatedFreeListErase m) K ∧ Ftrs (es.foldl segregatedFreeListErase m) K
  | [], F, m, _, hF, _, _, hH, hFt => ⟨hF, Frame.refl A L m, hH, hFt⟩
  | x :: es, F, m, hN, hF, hes, hnd, hH, hFt => by
    obtain ⟨i, hi⟩ := hes x List.mem_cons_self
    obtain ⟨h1, h2, h3⟩ := hg.erase_spec hN hF hi hKL
    rw [List.nodup_cons] at hnd
    have hes' : ∀ y ∈ es, ∃ j, y ∈ (F j).erase x := by
      intro y hy
      obtain ⟨j, hj⟩ := hes y (List.mem_cons_of_mem _ hy)
      have hyx : y ≠ x := by rintro rfl; exact hnd.1 hy
      exact ⟨j, (List.mem_erase_of_ne hyx).mpr hj⟩
    obtain ⟨h5, h6, h7, h8⟩ := hg.erases_spec hKL (hN.erase x) h1 hes' hnd.2 (h3.hdrs hH) (h3.ftrs hFt)
    refine ⟨?_, h2.trans h6, h7, h8⟩
    simpa only [List.foldl_cons, List.diff_cons] using h5

/-! ## `coalesce` -/

/-- The run of free blocks around the block `b` that has just been freed. -/
structure Run (P ps : List Block) (b : Block) (ns R : List Block) : Prop where
  free : b.alloc = false
  before : (ps = [] ∧ b.prevAlloc = true) ∨ ∃ p, ps = [p] ∧ p.alloc = false ∧ p.prevAlloc = true
  behind : (ns = [] ∧ ∃ n R', R = n :: R' ∧ n.alloc = true) ∨
    ∃ n, ns = [n] ∧ n.alloc = false ∧ R ≠ []

section Coalesce

variable {ps ns : List Block} {b : Block}

theorem Run.all_free (hr : Run P ps b ns R) : ∀ c ∈ ps ++ b :: ns, c.alloc = false := by
  intro c hc
  simp only [List.mem_append, List.mem_cons] at hc
  rcases hc with hc | rfl | hc
  · rcases hr.before with ⟨rfl, -⟩ | ⟨p, rfl, hp, -⟩
    · simp at hc
    · rw [List.mem_singleton.mp hc]; exact hp
  · exact hr.free
  · rcases hr.behind with ⟨rfl, -⟩ | ⟨n, rfl, hn, -⟩
    · simp at hc
    · rw [List.mem_singleton.mp hc]; exact hn

theorem Run.ne_nil (hr : Run P ps b ns R) : R ≠ [] := by
  rcases hr.behind with ⟨-, n, R', rfl, -⟩ | ⟨n, -, -, h⟩
  · simp
  · exact h

/-- The geometry of a run: where it starts and where it ends. -/
theorem Run.segs (hr : Run P ps b ns R) (hg : Geo A hi (P ++ (ps ++ b :: ns) ++ R)) :
    ∃ q q', Seg (A.memStartBrk + 16) true P q true ∧ Seg q true (ps ++ b :: ns) q' false ∧
      Blocks hi q' false R ∧ ((ps ++ [b]).head (by simp)).ptr = q := by
  have hB := hg.blocks
  rw [List.append_assoc] at hB
  obtain ⟨q, qa, h1, h2⟩ := hB.split (by simp)
  obtain ⟨q', qa', h3, h4⟩ := h2.split hr.ne_nil
  -- a run starts behind an allocated block and ends with a free one
  have hfirst : ((ps ++ [b]).head (by simp)).ptr = q ∧
      ((ps ++ [b]).head (by simp)).prevAlloc = qa := by
    rcases hr.before with ⟨rfl, -⟩ | ⟨p, rfl, -, -⟩
    · exact h2.head_eq
    · exact h2.head_eq
  have hqa : qa = true := by
    rw [← hfirst.2]
    rcases hr.before with ⟨rfl, h⟩ | ⟨p, rfl, -, h⟩
    · exact h
    · exact h
  have hlast : qa' = false := by
    rcases List.eq_nil_or_concat' (ps ++ b :: ns) with h | ⟨X, c, h⟩
    · simp at h
    · rw [h] at h3
      rw [← h3.last.1]
      exact hr.all_free c (by rw [h]; simp)
  rw [hqa] at h1 h3
  rw [hlast] at h3 h4
  exact ⟨q, q', h1, h3, h4, hfirst.1⟩

/-- The header at the address of a block. -/
theorem Geo.read_hdr {L : List Block} {c : Block} {x : ℕ} (hg : Geo A hi L) (hH : Hdrs m L) (hc : c ∈ L)
    (hx : c.ptr = x) : getAlloc m (headerPtr x) = c.alloc.toNat ∧ getSize m (headerPtr x) = c.size := by
  subst hx
  exact ⟨getAlloc_of_load (hg.sizeOk hc) (hH c hc), getSize_of_load (hg.sizeOk hc) (hH c hc)⟩

/-- The footer in front of an address leads to the block that ends there. -/
theorem Geo.read_ftr {L : List Block} {c : Block} {x : ℕ} (hg : Geo A hi L) (hc : c ∈ L)
    (hF : load32 m (c.ptr + c.size - 8) = c.word) (hx : x = c.ptr + c.size) :
    getSize m (prevFooterPtr x) = c.size ∧ prevBlock m x = c.ptr := by
  subst hx
  have hsz : getSize m (prevFooterPtr (c.ptr + c.size)) = c.size := getSize_of_load (hg.sizeOk hc) hF
  exact ⟨hsz, by rw [prevBlock, hsz, Nat.add_sub_cancel]⟩

/-- The part of `coalesce` before the list update: header and footer of the merged block are written
and the absorbed blocks leave their lists. -/
theorem coalesceMerge_eq (hr : Run P ps b ns R) (hg : Geo A hi (P ++ (ps ++ b :: ns) ++ R))
    (hH : Hdrs m (P ++ (ps ++ b :: ns) ++ R)) (hFt : Ftrs m (P ++ (ps ++ [b]) ++ R))
    (hX : Seg q true (ps ++ b :: ns) q' false) (hR : Blocks hi q' false R) :
    coalesceMerge m b.ptr = (q,
      if ps = [] ∧ ns = [] then m
      else (((ps ++ b :: ns).map Block.ptr).tail).foldl segregatedFreeListErase
        (syncFooter (setMeta m (headerPtr q) (q' - q) 1 0) q)) := by
  have hbL : b ∈ P ++ (ps ++ b :: ns) ++ R := by simp
  have hbs := hg.sizeOk hbL
  have hbh := hH b hbL
  have hsize : getSize m (headerPtr b.ptr) = b.size := getSize_of_load hbs hbh
  have hpa : getPrevAlloc m (headerPtr b.ptr) = b.prevAlloc.toNat := getPrevAlloc_of_load hbs hbh
  have hnext : nextBlock m b.ptr = b.ptr + b.size := by rw [nextBlock, hsize, hg.addSz_eq hbL]
  have hhi : q' ≤ hi := hR.le
  have htop := hg.top; have hA := A.start_top
  -- sums of sizes inside the heap do not wrap
  have hadd : ∀ x y, x + y ≤ hi → addSz x y = x + y := by
    intro x y hxy; exact Nat.mod_eq_of_lt (by omega)
  rcases hr.before with ⟨rfl, hbp⟩ | ⟨p, rfl, hpf, hpp⟩ <;>
    rcases hr.behind with ⟨rfl, n, R', rfl, hna⟩ | ⟨n, rfl, hnf, hRne⟩
  · -- neither neighbour is free
    obtain ⟨hb1, -, hb3⟩ : b.ptr = q ∧ b.prevAlloc = true ∧ b.ptr + b.size = q' := by
      cases hX with
      | cons size alloc _ _ hs => cases hs; exact ⟨rfl, rfl, rfl⟩
    have hnL : n ∈ P ++ ([] ++ [b]) ++ n :: R' := by simp
    obtain ⟨hnal, -⟩ := hg.read_hdr hH hnL (hR.head_eq.1.trans hb3.symm)
    rw [hna] at hnal
    simp only [coalesceMerge, hnext, hpa, hbp, hnal]
    simp [hb1]
  · -- only the next block is free
    obtain ⟨hb1, hn1, hn2⟩ : b.ptr = q ∧ n.ptr = b.ptr + b.size ∧ n.ptr + n.size = q' := by
      cases hX with
      | cons size alloc _ _ hs =>
        cases hs with
        | cons size' alloc' _ _ hs' => cases hs'; exact ⟨rfl, rfl, rfl⟩
    have hnL : n ∈ P ++ ([] ++ [b, n]) ++ R := by simp
    obtain ⟨hnal, hnsz⟩ := hg.read_hdr hH hnL hn1
    rw [hnf] at hnal
    simp only [coalesceMerge, hnext, hpa, hbp, hnal, hsize, hnsz]
    rw [hadd b.size n.size (by omega), show b.size + n.size = q' - q by omega]
    simp [hb1, hn1]
  · -- only the previous block is free
    obtain ⟨hp1, hb1, hb2⟩ : p.ptr = q ∧ b.ptr = p.ptr + p.size ∧ b.ptr + b.size = q' := by
      cases hX with
      | cons size alloc _ _ hs =>
        cases hs with
        | cons size' alloc' _ _ hs' => cases hs'; exact ⟨rfl, rfl, rfl⟩
    have hbp : b.prevAlloc = false := by
      cases hX with
      | cons size alloc _ _ hs => cases hs; exact hpf
    have hpL : p ∈ P ++ ([p] ++ [b]) ++ n :: R' := by simp
    have hnL : n ∈ P ++ ([p] ++ [b]) ++ n :: R' := by simp
    obtain ⟨hnal, -⟩ := hg.read_hdr hH hnL (hR.head_eq.1.trans hb2.symm)
    rw [hna] at hnal
    obtain ⟨hpsz, hprev⟩ := hg.read_ftr hpL (hFt p (by simp) hpf) hb1
    simp only [coalesceMerge, hnext, hpa, hbp, hnal, hsize, hpsz, hprev]
    rw [hadd p.size b.size (by omega), show p.size + b.size = q' - q by omega]
    simp [hp1]
  · -- both are free
    obtain ⟨hp1, hb1, hn1, hn2⟩ : p.ptr = q ∧ b.ptr = p.ptr + p.size ∧ n.ptr = b.ptr + b.size ∧
        n.ptr + n.size = q' := by
      cases hX with
      | cons size alloc _ _ hs =>
        cases hs with
        | cons size' alloc' _ _ hs' =>
          cases hs' with
          | cons _ _ _ _ hs'' => cases hs''; exact ⟨rfl, rfl, rfl, rfl⟩
    have hbp : b.prevAlloc = false := by
      cases hX with
      | cons size alloc _ _ hs => cases hs; exact hpf
    have hpL : p ∈ P ++ ([p] ++ [b, n]) ++ R := by simp
    have hnL : n ∈ P ++ ([p] ++ [b, n]) ++ R := by simp
    obtain ⟨hnal, hnsz⟩ := hg.read_hdr hH hnL hn1
    rw [hnf] at hnal
    obtain ⟨hpsz, hprev⟩ := hg.read_ftr hpL (hFt p (by simp) hpf) hb1
    simp only [coalesceMerge, hnext, hpa, hbp, hnal, hsize, hnsz, hpsz, hprev]
    rw [hadd p.size b.size (by omega), hadd (p.size + b.size) n.size (by omega),
      show p.size + b.size + n.size = q' - q by omega]
    simp [hp1, hn1]

theorem Seg.ptr_nodup {p r : ℕ} {pa ra : Bool} (h : Seg p pa X r ra) : (X.map Block.ptr).Nodup := by
  induction h with
  | nil => simp
  | @cons p r pa ra X size alloc h16 _ hs ih =>
    rw [List.map_cons, List.nodup_cons]
    refine ⟨fun hm => ?_, ih⟩
    obtain ⟨c, hc, hcp⟩ := List.mem_map.mp hm
    have h1 := (hs.mem_in hc).1.lo
    have h2 : c.ptr = p := hcp
    omega

/-- First half of `coalesce`: the merged block is in place, all blocks of the run but the first have
left their lists. -/
theorem coalesceMerge_spec (hr : Run P ps b ns R) (hg : Geo A hi (P ++ (ps ++ b :: ns) ++ R))
    (hH : Hdrs m (P ++ (ps ++ b :: ns) ++ R)) (hFt : Ftrs m (P ++ (ps ++ [b]) ++ R))
    (hF : FreeLists A m F) (hfl : Filed (P ++ (ps ++ b :: ns) ++ R) F)
    (hP : Seg (A.memStartBrk + 16) true P q true) (hX : Seg q true (ps ++ b :: ns) q' false)
    (hR : Blocks hi q' false R) :
    ∃ m₁, coalesceMerge m b.ptr = (q, m₁) ∧
      FreeLists A m₁ (fun j => (F j).diff ((ps ++ b :: ns).map Block.ptr).tail) ∧
      Frame A (P ++ (ps ++ b :: ns) ++ R) m m₁ ∧ Hdrs m₁ (P ++ [mergedBlock q q'] ++ R) ∧
      Ftrs m₁ (P ++ [mergedBlock q q'] ++ R) := by
  have heq := coalesceMerge_eq hr hg hH hFt hX hR
  by_cases h0 : ps = [] ∧ ns = []
  · obtain ⟨rfl, rfl⟩ := h0
    have hb : b = mergedBlock q q' := by
      cases hX with
      | cons size alloc _ _ hs => cases hs; simp [mergedBlock]
    rw [if_pos ⟨rfl, rfl⟩] at heq
    refine ⟨m, heq, by simpa using hF, Frame.refl _ _ _, ?_, ?_⟩
    · rw [← hb]; simpa using hH
    · rw [← hb]; simpa using hFt
  · rw [if_neg h0] at heq
    have hFt' : Ftrs m (P ++ R) := fun c hc hcf => hFt c (by
      simp only [List.mem_append] at hc ⊢; tauto) hcf
    obtain ⟨h1, h2, h3, h4⟩ := merge_write hP hX hr.all_free hR hg.top hH hFt' hF hfl.nodesIn
    have hmi := merge_metaIn (P := P) (R := R) hX hr.all_free
    have hes : ∀ x ∈ ((ps ++ b :: ns).map Block.ptr).tail, ∃ i, x ∈ F i := by
      intro x hx
      obtain ⟨c, hc, rfl⟩ := List.mem_map.mp (List.mem_of_mem_tail hx)
      exact ⟨classOf c.size, (hfl _ _).mpr ⟨c, List.mem_append_left _ (List.mem_append_right _ hc),
        hr.all_free c hc, rfl, rfl⟩⟩
    have hnd : ((ps ++ b :: ns).map Block.ptr).tail.Nodup := (hX.ptr_nodup).tail
    obtain ⟨h5, h6, h7, h8⟩ := hg.erases_spec hmi hfl.nodesIn h3 hes hnd h1 h2
    exact ⟨_, heq, h5, h4.trans h6, h7, h8⟩

/-- **`coalesce`** replaces the run around the freed block by one free block, filed under its size. -/
theorem coalesce_spec (hr : Run P ps b ns R) (hg : Geo A hi (P ++ (ps ++ b :: ns) ++ R))
    (hH : Hdrs m (P ++ (ps ++ b :: ns) ++ R)) (hFt : Ftrs m (P ++ (ps ++ [b]) ++ R))
    (hF : FreeLists A m F) (hfl : Filed (P ++ (ps ++ b :: ns) ++ R) F) :
    ∃ q q' m' F', Seg (A.memStartBrk + 16) true P q true ∧
      Seg q true (ps ++ b :: ns) q' false ∧ Blocks hi q' false R ∧
      coalesce A.segregatedFreeLists m b.ptr = some (q, m') ∧
      Rep A hi m' (P ++ [mergedBlock q q'] ++ R) F' ∧ Frame A (P ++ (ps ++ b :: ns) ++ R) m m' := by
  obtain ⟨q, q', hP, hX, hR, hq⟩ := hr.segs hg
  obtain ⟨m₁, he, h1, h2, h3, h4⟩ := coalesceMerge_spec hr hg hH hFt hF hfl hP hX hR
  obtain ⟨-, hg1⟩ := merge_geo hP hX hR hg.top
  have hnd := hX.ptr_nodup
  have hXf := hr.all_free
  obtain ⟨a, X', haX⟩ : ∃ a X', ps ++ b :: ns = a :: X' :=
    List.exists_cons_of_ne_nil hX.ne_nil
  rw [haX] at hX hg hfl h1 h2 hnd hXf ⊢
  have haq : a.ptr = q := by cases hX; rfl
  simp only [List.map_cons, List.tail_cons] at h1 hnd
  rw [haq] at hnd
  have hM : mergedBlock q q' ∈ P ++ [mergedBlock q q'] ++ R := by simp
  -- the members left: `q` and the free blocks outside the run
  have hmem1 : ∀ i y, y ∈ (F i).diff (X'.map Block.ptr) ↔ y ∈ F i ∧ y ∉ X'.map Block.ptr :=
    fun i y => (Rings.nodup hF i).mem_sdiff_iff
  have hN1 : NodesIn (P ++ [mergedBlock q q'] ++ R) (fun j => (F j).diff (X'.map Block.ptr)) := by
    intro i y hy
    obtain ⟨hy1, hy2⟩ := (hmem1 i y).mp hy
    obtain ⟨c, hc, hcf, rfl⟩ := hfl.nodesIn i y hy1
    simp only [List.mem_append, List.mem_cons] at hc
    rcases hc with (hc | rfl | hc) | hc
    · exact ⟨c, by simp [hc], hcf, rfl⟩
    · exact ⟨_, hM, rfl, haq.symm⟩
    · exact absurd (List.mem_map_of_mem hc) hy2
    · exact ⟨c, by simp [hc], hcf, rfl⟩
  have hqF : q ∈ (F (classOf a.size)).diff (X'.map Block.ptr) := by
    refine (hmem1 _ _).mpr ⟨(hfl _ _).mpr ⟨a, by simp, hXf a (by simp), haq, rfl⟩, ?_⟩
    exact (List.nodup_cons.mp hnd).1
  obtain ⟨h5, h6, h7⟩ := hg1.erase_spec hN1 h1 hqF (MetaIn.refl _)
  have hmem2 : ∀ i y, y ∈ ((F i).diff (X'.map Block.ptr)).erase q ↔
      y ∈ F i ∧ y ∉ X'.map Block.ptr ∧ y ≠ q := by
    intro i y
    rw [Rings.mem_erase_iff h1, hmem1 i y, and_assoc]
  obtain ⟨m', h9, h10, h11, h12⟩ := hg1.insert_spec (b := mergedBlock q q') (hN1.erase q) h5 hM
    rfl (fun i hi => ((hmem2 i _).mp hi).2.2 rfl) (h7.hdrs h3 _ hM)
  refine ⟨q, q', m', _, hP, hX, hR, ?_, ⟨hg1, h12.hdrs (h7.hdrs h3), h12.ftrs (h7.ftrs h4), h10, ?_⟩,
    ?_⟩
  · have h9' : segregatedFreeListInsert A.segregatedFreeLists (segregatedFreeListErase m₁ q) q =
        some m' := h9
    simp only [coalesce, he, segregatedFreeListUpdate, h9']
    rfl
  · refine hfl.splice hg fun i y => ?_
    rw [Rings.mem_push_iff, hmem2]
    simp only [List.mem_cons, List.mem_map, forall_eq_or_imp, haq]
    constructor
    · rintro (⟨hy1, hy2, hy3⟩ | ⟨rfl, rfl⟩)
      · exact Or.inl ⟨hy1, hy3, fun x hx e => hy2 ⟨x, hx, e.symm⟩⟩
      · exact Or.inr ⟨_, Or.inl rfl, rfl, rfl, rfl⟩
    · rintro (⟨hy1, hy2, hy3⟩ | ⟨c, hc, -, rfl, rfl⟩)
      · refine Or.inl ⟨hy1, ?_, hy2⟩
        rintro ⟨x, hx, e⟩
        exact hy3 x hx e.symm
      · obtain rfl : c = mergedBlock q q' := by simpa using hc
        exact Or.inr ⟨rfl, rfl⟩
  · exact h2.trans ((h6.trans h11).mono fun y hy => merge_owned hX hXf hy)

end Coalesce

end Csapp.Malloc
