import Csapp.Malloc.Walk
import Mathlib.Data.List.Perm.Subperm

/-!
# Malloc.Alloc — `place`, `segregated_find_best_fit` and `mm_malloc`

`place` takes a free block out of its list and splits it if the rest can be a block; the search finds
a smallest free block that fits; `mmMalloc_spec` puts them together with `extend_heap`.
-/

namespace Csapp.Malloc

open Csapp.Lib

/-! ## `place` -/

section Place

variable {A : Arena} {hi : ℕ} {P R L : List Block} {F : Fin 10 → List ℕ} {m : Mem} {b n : Block}

/-- `free_list_erase` of a free block: it is filed no more. -/
theorem Rep.erase_spec (hr : Rep A hi m (P ++ b :: R) F) (hbf : b.alloc = false) :
    FreeLists A (segregatedFreeListErase m b.ptr) (fun j => (F j).erase b.ptr) ∧
      Filed (P ++ R) (fun j => (F j).erase b.ptr) ∧
      Frame A (P ++ b :: R) m (segregatedFreeListErase m b.ptr) ∧
      Hdrs (segregatedFreeListErase m b.ptr) (P ++ b :: R) ∧
      Ftrs (segregatedFreeListErase m b.ptr) (P ++ b :: R) := by
  have hb : b ∈ P ++ b :: R := by simp
  have hx : b.ptr ∈ F (classOf b.size) := (hr.filed _ _).mpr ⟨b, hb, hbf, rfl, rfl⟩
  obtain ⟨h1, h2, h3⟩ := hr.geo.erase_spec hr.filed.nodesIn hr.lists hx (MetaIn.refl _)
  refine ⟨h1, ?_, h2, h3.hdrs hr.hdrs, h3.ftrs hr.ftrs⟩
  have hspl : Filed (P ++ [] ++ R) (fun j => (F j).erase b.ptr) :=
    Filed.splice (X := [b]) (by simpa using hr.geo) (by simpa using hr.filed) fun i a => by
      rw [Rings.mem_erase_iff hr.lists]; simp
  simpa using hspl

/-- Writing the headers of an allocated block and of the allocated block behind it, in a layout whose
other blocks are in memory and filed. -/
theorem Geo.claim_spec (hg : Geo A hi (P ++ b :: n :: R)) (hba : b.alloc = true)
    (hna : n.alloc = true) (hH : Hdrs m (P ++ R)) (hFt : Ftrs m (P ++ R)) (hF : FreeLists A m F)
    (hfl : Filed (P ++ R) F) :
    Rep A hi (store32 (store32 m (headerPtr b.ptr) b.word) (headerPtr n.ptr) n.word)
      (P ++ b :: n :: R) F := by
  have hb : b ∈ P ++ b :: n :: R := by simp
  have hn : n ∈ P ++ b :: n :: R := by simp
  have hcase : ∀ c ∈ P ++ b :: n :: R, c = b ∨ c = n ∨ c ∈ P ++ R := by
    intro c hc
    rwa [mem_middle, mem_middle] at hc
  have hfl' : Filed (P ++ b :: n :: R) F := hfl.congr (by simp [frees_append, frees_cons, hba, hna])
  refine ⟨hg, ?_, fun c hc hcf => ?_, ?_, hfl'⟩
  · refine hg.store_hdr hn fun c hc hcn => ?_
    by_cases hcb : c = b
    · rw [hcb]; exact load32_store32_same (word_lt (hg.sizeOk hb) _ _)
    · rw [hg.hdr_hdr hb hc hcb]
      exact hH c (((hcase c hc).resolve_left hcb).resolve_left hcn)
  · rw [hg.hdr_ftr hn hc hcf, hg.hdr_ftr hb hc hcf]
    rcases hcase c hc with rfl | rfl | hc
    · rw [hcf] at hba; exact absurd hba (by simp)
    · rw [hcf] at hna; exact absurd hna (by simp)
    · exact hFt c hc hcf
  · exact hg.lists_hdr hfl'.nodesIn (hg.lists_hdr hfl'.nodesIn hF hb _) hn _

/-- `place` without a split: the whole block is used. -/
theorem place_whole_spec {allocSize : ℕ} (hr : Rep A hi m (P ++ b :: n :: R) F)
    (hbf : b.alloc = false) (hbp : b.prevAlloc = true) (hna : n.alloc = true)
    (hle : allocSize ≤ b.size) (hlt : b.size < allocSize + 16) :
    ∃ m' F', place A.segregatedFreeLists m b.ptr allocSize = some m' ∧
      Rep A hi m' (P ++ { b with alloc := true } :: { n with prevAlloc := true } :: R) F' ∧
      Frame A (P ++ b :: n :: R) m m' := by
  obtain ⟨h1, h2, h3, h4, h5⟩ := hr.erase_spec hbf
  have hb : b ∈ P ++ b :: n :: R := by simp
  have hn : n ∈ P ++ b :: n :: R := by simp
  have hbs := hr.geo.sizeOk hb
  obtain ⟨q, qa, hS, hB⟩ := hr.geo.blocks.split (List.cons_ne_nil _ _)
  obtain ⟨hbq, hbpa, hb16, h8, hBn⟩ := hB.uncons
  have hg : Geo A hi (P ++ { b with alloc := true } :: { n with prevAlloc := true } :: R) := by
    refine ⟨hS.append_blocks ?_, hr.geo.top⟩
    subst hbq hbpa
    exact .cons b.size true hb16 h8 (hBn.setPrev true)
  have hsub : ∀ c ∈ P ++ R, c ∈ P ++ b :: n :: R := fun c hc =>
    mem_middle.mpr (Or.inr (mem_middle.mpr (Or.inr hc)))
  set m₁ := segregatedFreeListErase m b.ptr with hm₁
  have hrep := hg.claim_spec rfl hna (fun c hc => h4 c (hsub c hc)) (fun c hc => h5 c (hsub c hc)) h1
    (h2.congr (by simp [frees_append, frees_cons, hna]))
  refine ⟨_, _, ?_, hrep, ?_⟩
  · -- the code writes these two headers
    have hsz : getSize m₁ (headerPtr b.ptr) = b.size := getSize_of_load hbs (h4 b hb)
    have htop := hr.geo.top; have hA := A.start_top; have hbt := (hr.geo.mem_in hb).top
    have hblo := hr.geo.ptr_pos hb
    have hadd : addSz allocSize 16 = allocSize + 16 := Nat.mod_eq_of_lt (by omega)
    have hset : setMeta m₁ (headerPtr b.ptr) b.size 1 1 =
        store32 m₁ (headerPtr b.ptr) (word b.size true true) := setMeta_eq hbs true true
    have hw : load32 (store32 m₁ (headerPtr b.ptr) (word b.size true true)) (headerPtr b.ptr) =
        word b.size true true := load32_store32_same (word_lt hbs _ _)
    have hnext : nextBlock (store32 m₁ (headerPtr b.ptr) (word b.size true true)) b.ptr = n.ptr := by
      rw [nextBlock, getSize_of_load hbs hw, hr.geo.addSz_eq hb]
      exact hBn.head_eq.1.symm
    have hne : n ≠ b := by
      rintro rfl; have := hBn.head_eq.1; omega
    have hnw : load32 (store32 m₁ (headerPtr b.ptr) (word b.size true true)) (headerPtr n.ptr) =
        word n.size n.prevAlloc n.alloc := by
      rw [hr.geo.hdr_hdr hb hn hne]; exact h4 n hn
    have hpa : setPrevAlloc (store32 m₁ (headerPtr b.ptr) (word b.size true true))
        (headerPtr n.ptr) 1 = store32 (store32 m₁ (headerPtr b.ptr) (word b.size true true))
          (headerPtr n.ptr) (word n.size true n.alloc) := setPrevAlloc_eq (hr.geo.sizeOk hn) hnw true
    simp only [place, minBlockSize, ← hm₁, hsz, hadd, if_pos hlt, hset, hnext, hpa, Block.word, hbp]
  · exact h3.trans ((Frame.store_hdr A hb (by have := hr.geo.ptr_pos hb; omega) _).trans
      (Frame.store_hdr A hn (by have := hr.geo.ptr_pos hn; omega) _))

/-- Two blocks in place of one: the first is in use, the second is what `b` was. -/
theorem Geo.split_block {a : ℕ} (hg : Geo A hi (P ++ b :: n :: R)) (h16 : 16 ≤ a) (h8 : a % 8 = 0)
    (hle : a + 16 ≤ b.size) :
    Geo A hi (P ++ ⟨b.ptr, a, b.prevAlloc, true⟩ :: ⟨b.ptr + a, b.size - a, true, b.alloc⟩ :: n :: R) := by
  obtain ⟨q, qa, hS, hB⟩ := hg.blocks.split (List.cons_ne_nil _ _)
  obtain ⟨hbq, hbpa, -, hb8, hBn⟩ := hB.uncons
  refine ⟨hS.append_blocks ?_, hg.top⟩
  subst hbq hbpa
  refine .cons a true h16 h8 (.cons (b.size - a) b.alloc (by omega) (by omega) ?_)
  rw [show b.ptr + a + (b.size - a) = b.ptr + b.size by omega]
  exact hBn

/-- The bytes of the two halves of a free block were the allocator's. -/
theorem split_owned {a y : ℕ} (h4 : 4 ≤ a) (hab : a + 4 ≤ b.size) (hbf : b.alloc = false)
    (hy : Owned (P ++ ⟨b.ptr, a, true, true⟩ :: ⟨b.ptr + a, b.size - a, true, false⟩ :: n :: R) y) :
    Owned (P ++ b :: n :: R) y := by
  obtain ⟨c, hc, hy⟩ := hy
  simp only [List.mem_append, List.mem_cons] at hc
  rcases hc with hc | rfl | rfl | hc
  · exact ⟨c, by simp [hc], hy⟩
  · rcases hy with hy | ⟨hf, -⟩
    · exact ⟨b, by simp, Or.inl hy⟩
    · exact absurd hf (by simp)
  · refine ⟨b, by simp, Or.inr ⟨hbf, ?_⟩⟩
    simp only at hy
    omega
  · exact ⟨c, by simpa using Or.inr (Or.inr hc), hy⟩

/-- `place` with a split: the rest stays a free block. -/
theorem place_split_spec {allocSize : ℕ} (hr : Rep A hi m (P ++ b :: n :: R) F)
    (hbf : b.alloc = false) (hna : n.alloc = true)
    (hbp : b.prevAlloc = true) (h16 : 16 ≤ allocSize) (h8 : allocSize % 8 = 0)
    (hle : allocSize + 16 ≤ b.size) :
    ∃ m' F', place A.segregatedFreeLists m b.ptr allocSize = some m' ∧
      Rep A hi m' (P ++ ⟨b.ptr, allocSize, true, true⟩ ::
        ⟨b.ptr + allocSize, b.size - allocSize, true, false⟩ :: n :: R) F' ∧
      Frame A (P ++ b :: n :: R) m m' := by
  obtain ⟨h1, h2, h3, h4, h5⟩ := hr.erase_spec hbf
  have hb : b ∈ P ++ b :: n :: R := by simp
  have hn : n ∈ P ++ b :: n :: R := by simp
  have hbs := hr.geo.sizeOk hb
  have hbs' : SizeOk allocSize := ⟨h8, by have := hbs.2; omega⟩
  obtain ⟨q, qa, hS, hB⟩ := hr.geo.blocks.split (List.cons_ne_nil _ _)
  obtain ⟨hbq, hbpa, hb16, hb8, hBn⟩ := hB.uncons
  set u : Block := ⟨b.ptr, allocSize, true, true⟩ with hu
  set r : Block := ⟨b.ptr + allocSize, b.size - allocSize, true, false⟩ with hrr
  have hg : Geo A hi (P ++ [u] ++ r :: n :: R) := by
    have := hr.geo.split_block h16 h8 hle
    rw [hbp, hbf] at this
    simpa using this
  have hum : u ∈ P ++ [u] ++ r :: n :: R := by simp
  have hrm : r ∈ P ++ [u] ++ r :: n :: R := by simp
  have hrs := hg.sizeOk hrm
  set m₁ := segregatedFreeListErase m b.ptr with hm₁
  set m₂ := store32 m₁ (headerPtr u.ptr) u.word with hm₂
  -- the header of the used part is written, the rest is released
  have hother : ∀ c ∈ P ++ n :: R, c ∈ P ++ b :: n :: R ∧ c ≠ b := by
    intro c hc
    rcases List.mem_append.mp hc with hc | hc
    · have := (hS.mem_in hc).1.top; have := (hS.mem_in hc).2
      exact ⟨by simp [hc], by rintro rfl; omega⟩
    · have := (hBn.mem_in hc).lo
      exact ⟨List.mem_append_right _ (List.mem_cons_of_mem _ hc), by rintro rfl; omega⟩
  have hH2 : ∀ c ∈ P ++ n :: R, load32 m₂ (headerPtr c.ptr) = c.word := fun c hc => by
    rw [hm₂, hu]
    rw [hr.geo.hdr_hdr hb (hother c hc).1 (hother c hc).2]
    exact h4 c (hother c hc).1
  have hF2 : Ftrs m₂ (P ++ n :: R) := fun c hc hcf => by
    rw [hm₂, hu]
    rw [hr.geo.hdr_ftr hb (hother c hc).1 hcf]
    exact h5 c (hother c hc).1 hcf
  have huw : load32 m₂ (headerPtr b.ptr) = word allocSize true true :=
    load32_store32_same (word_lt hbs' _ _)
  have hl2 : FreeLists A m₂ (fun j => (F j).erase b.ptr) :=
    hr.geo.lists_hdr (hr.filed.nodesIn.erase b.ptr) h1 hb _
  have hsub : ∀ c ∈ P ++ [u] ++ R, c = u ∨ c ∈ P ++ n :: R := fun c hc => by
    rw [← List.append_cons, mem_middle] at hc
    exact hc.imp_right fun h => mem_middle.mpr (Or.inr h)
  obtain ⟨m', F', h6, h7, h9, h10, h11, h12, h13, h14⟩ := hg.release_write (m := m₂) rfl
    (fun c hc => by
      rcases hsub c hc with rfl | hc
      · exact huw
      · exact hH2 c hc)
    (fun c hc hcf => by
      rcases hsub c hc with rfl | hc
      · exact absurd hcf (by simp)
      · exact hF2 c hc hcf)
    hl2 (h2.congr (by simp [frees_append, frees_cons, hu]))
  have hnw : load32 m' (headerPtr n.ptr) = n.word := h9.trans (hH2 n (by simp))
  have hrest : ∀ c ∈ P ++ u :: r :: n :: R, c ≠ n → c ∈ P ++ [u] ++ r :: R := by
    intro c hc hcn
    simp only [mem_middle] at hc
    simp only [← List.append_cons, mem_middle]
    exact hc.imp_right fun h => h.imp_right fun h => h.resolve_left hcn
  refine ⟨m', F', ?_, ⟨by simpa using hg, fun c hc => ?_, fun c hc hcf => ?_, h10, by simpa using h11⟩,
    ?_⟩
  · -- the code
    have hsz : getSize m₁ (headerPtr b.ptr) = b.size := getSize_of_load hbs (h4 b hb)
    have hblo := hr.geo.ptr_pos hb; have hbt := (hr.geo.mem_in hb).top
    have htop := hr.geo.top; have hA := A.start_top
    have hadd : addSz allocSize 16 = allocSize + 16 := Nat.mod_eq_of_lt (by omega)
    have hsubz : subSz b.size allocSize = b.size - allocSize := by unfold subSz; omega
    have hset : setMeta m₁ (headerPtr b.ptr) allocSize 1 1 = m₂ := setMeta_eq hbs' true true
    have hnext : nextBlock m₂ b.ptr = r.ptr := by rw [nextBlock, getSize_of_load hbs' huw, hg.addSz_eq hum]
    have hwr : syncFooter (setMeta m₂ (headerPtr r.ptr) (b.size - allocSize) 1 0) r.ptr =
        store32 (store32 m₂ (headerPtr r.ptr) r.word) (r.ptr + r.size - 8) r.word :=
      setMeta_syncFooter hrs (hg.addSz_eq hrm) rfl
    simp only [place, minBlockSize, ← hm₁, hsz, hadd, if_neg (by omega : ¬ b.size < allocSize + 16),
      hset, hnext, hsubz, hwr, h6]
  · by_cases hcn : c = n
    · rw [hcn]; exact hnw
    · exact h13 c (hrest c hc hcn)
  · by_cases hcn : c = n
    · rw [hcn, hna] at hcf; exact absurd hcf (by simp)
    · exact h14 c (hrest c hc hcn) hcf
  · refine h3.trans ((Frame.store_hdr A hb (by have := hr.geo.ptr_pos hb; omega) _).trans
      (h12.mono fun y hy => ?_))
    exact split_owned (a := allocSize) (by omega) (by omega) hbf (by simpa using hy)

end Place

section FindAndPlace

variable {s : State} {L : List Block} {F : Fin 10 → List ℕ} {b : Block} {allocSize : ℕ}

/-- **`place`** on a free block that is large enough. -/
theorem State.place_spec (hI : Inv s L F) (hb : b ∈ L) (hbf : b.alloc = false)
    (h16 : 16 ≤ allocSize) (h8 : allocSize % 8 = 0) (hle : allocSize ≤ b.size) :
    ∃ m' L' F' t, s.place b.ptr allocSize = some { s with mem := m' } ∧
      Inv { s with mem := m' } L' F' ∧ allocSize ≤ t ∧
      (∀ p u, Used L' p u ↔ Used L p u ∨ (p = b.ptr ∧ u = t)) ∧ Keeps L s.mem m' := by
  obtain ⟨P, n, R, rfl⟩ := hI.geo.blocks.exists_next hb (hI.geo.blocks.free_size hb hbf)
  obtain ⟨q, qa, hS, hB⟩ := hI.geo.blocks.split (List.cons_ne_nil _ _)
  obtain ⟨-, -, -, -, hBn⟩ := hB.uncons
  have hn : n ∈ P ++ b :: n :: R := by simp
  have hbp : b.prevAlloc = true := hI.coalesced b hb hbf
  have hnp : n.prevAlloc = false := hBn.head_eq.2.trans hbf
  have hna : n.alloc = true := by
    by_contra hc
    have := hI.coalesced n hn (by simpa using hc)
    rw [hnp] at this
    exact absurd this (by simp)
  have hcP : Coalesced P := fun c hc => hI.coalesced c (by simp [hc])
  have hcR : Coalesced R := fun c hc => hI.coalesced c (by simp [hc])
  by_cases hsplit : allocSize + 16 ≤ b.size
  · obtain ⟨m', F', h1, h2, h3⟩ := place_split_spec hI.toRep hbf hna hbp h16 h8 hsplit
    refine ⟨m', _, F', allocSize, by simp [State.place, h1], hI.of_rep h2 ?_ (hI.geo.headWord h3),
      le_rfl, fun p u => ?_, hI.geo.keeps h3⟩
    · intro c hc hcf
      simp only [List.mem_append, List.mem_cons] at hc
      rcases hc with hc | rfl | rfl | rfl | hc
      · exact hcP c hc hcf
      · rfl
      · rfl
      · rw [hna] at hcf; exact absurd hcf (by simp)
      · exact hcR c hc hcf
    · rw [used_append, used_cons_alloc rfl h16, used_cons_free rfl, used_append, used_cons_free hbf]
      tauto
  · obtain ⟨m', F', h1, h2, h3⟩ := place_whole_spec hI.toRep hbf hbp hna hle (by omega)
    refine ⟨m', _, F', b.size, by simp [State.place, h1], hI.of_rep h2 ?_ (hI.geo.headWord h3),
      hle, fun p u => ?_, hI.geo.keeps h3⟩
    · intro c hc hcf
      simp only [List.mem_append, List.mem_cons] at hc
      rcases hc with hc | rfl | rfl | hc
      · exact hcP c hc hcf
      · exact absurd hcf (by simp)
      · rfl
      · exact hcR c hc hcf
    · have hb16 := hI.geo.blocks.free_size hb hbf
      rw [used_append, used_cons_alloc (b := { b with alloc := true }) rfl hb16, used_cons_setPrev,
        used_append, used_cons_free hbf]
      tauto

/-- The walk over a list ends before its fuel does. -/
theorem Rep.length_lt {A : Arena} {hi : ℕ} {m : Mem} (hr : Rep A hi m L F) (i : Fin 10) :
    (F i).length < walkFuel := by
  have hsub : F i ⊆ L.map Block.ptr := fun a ha => by
    obtain ⟨b, hb, -, rfl⟩ := hr.filed.nodesIn i a ha
    exact List.mem_map_of_mem hb
  have h1 := (List.Nodup.subperm (Rings.nodup hr.lists i) hsub).length_le
  rw [List.length_map] at h1
  have h2 := hr.geo.blocks.length_le
  have h3 := hr.geo.top
  unfold walkFuel minBlockSize
  omega

/-- **`segregated_find_best_fit`**: `NULL` when no free block is large enough, else a smallest one
that is. -/
theorem segregatedFindBestFit_spec {A : Arena} {hi : ℕ} {m : Mem} (hr : Rep A hi m L F)
    (h16 : 16 ≤ allocSize) :
    ∃ r, segregatedFindBestFit A.segregatedFreeLists m allocSize = some r ∧
      ((r = null ∧ ∀ b ∈ L, b.alloc = false → b.size < allocSize) ∨
        (r ≠ null ∧ ∃ b ∈ L, b.alloc = false ∧ b.ptr = r ∧ allocSize ≤ b.size ∧
          ∀ c ∈ L, c.alloc = false → allocSize ≤ c.size → b.size ≤ c.size)) := by
  have hsz : ∀ b ∈ L, getSize m (headerPtr b.ptr) = b.size := fun b hb => hr.getSize_eq hb
  have hpos : ∀ i, ∀ a ∈ F i, a ≠ null := by
    intro i a ha
    obtain ⟨b, hb, -, rfl⟩ := hr.filed.nodesIn i a ha
    have := hr.geo.ptr_pos hb
    unfold null; omega
  have hmem : ∀ b ∈ L, b.alloc = false → b.ptr ∈ F (classOf b.size) := fun b hb hbf =>
    (hr.filed _ _).mpr ⟨b, hb, hbf, rfl, rfl⟩
  -- the lists from the class of the request on hold all blocks that fit
  have hclass : ∀ b ∈ L, allocSize ≤ b.size → sizeClass allocSize ≤ (classOf b.size : ℕ) :=
    fun b hb hle => sizeClass_mono hle (hr.geo.sizeOk hb).2
  have hi10 := sizeClass_lt allocSize
  obtain ⟨r, h1, h2⟩ := bestFitFrom_spec allocSize hr.lists hr.length_lt hpos
    (numLists - sizeClass allocSize) (sizeClass allocSize) (by unfold numLists; omega)
  refine ⟨r, ?_, ?_⟩
  · simp only [segregatedFindBestFit, lowerBound_eq h16, Option.bind_eq_bind, Option.bind_some, h1]
  · rcases h2 with ⟨rfl, h2⟩ | ⟨hr0, j, h3, h4, h5, h6, h7⟩
    · refine Or.inl ⟨rfl, fun b hb hbf => ?_⟩
      by_contra hc
      refine h2 (classOf b.size) (hclass b hb (by omega)) ?_ b.ptr (hmem b hb hbf) ?_
      · have := (classOf b.size).isLt; unfold numLists; omega
      · rw [hsz b hb]; omega
    · obtain ⟨b, hb, hbf, rfl, hbj⟩ := (hr.filed j r).mp h4
      rw [hsz b hb] at h5 h6
      refine Or.inr ⟨hr0, b, hb, hbf, rfl, h5, fun c hc hcf hle => ?_⟩
      have hcm := hmem c hc hcf
      rcases Nat.lt_trichotomy (classOf c.size) j with hlt | heq | hgt
      · exact absurd (by rw [hsz c hc]; exact hle) (h7 _ (hclass c hc hle) hlt _ hcm)
      · rw [Fin.ext heq] at hcm
        have := h6 c.ptr hcm (by rw [hsz c hc]; exact hle)
        rwa [hsz c hc] at this
      · -- a larger class has larger sizes
        by_contra hcb
        have := sizeClass_mono (le_of_lt (not_le.mp hcb)) (hr.geo.sizeOk hb).2
        rw [← hbj] at hgt
        exact absurd hgt (not_lt.mpr this)

end FindAndPlace

/-! ## `mm_malloc` -/

section Malloc

variable {s : State} {L P : List Block} {F : Fin 10 → List ℕ} {ta : Bool}

/-- The amount `mm_malloc` asks `extend_heap` for, when nothing fits: with a free block at the end of
the heap it is enough for the request. -/
theorem extendSize_spec {allocSize : ℕ} (hr : Rep s.arena s.blockTail s.mem
      (P ++ [⟨s.blockTail, 0, ta, true⟩]) F)
    (h8 : allocSize % 8 = 0) (h32 : allocSize < 2 ^ 32)
    (hno : ∀ b ∈ P, b.alloc = false → b.size < allocSize) :
    ∃ e, (if getPrevAlloc s.mem (headerPtr s.blockTail) = 0 then
        subSz allocSize (getSize s.mem (prevFooterPtr s.blockTail)) else allocSize) = e ∧
      e % 8 = 0 ∧ e ≤ allocSize ∧
      ∀ P' ps q, P = P' ++ ps → ExtendsFrom ps s.blockTail ta q →
        allocSize ≤ s.blockTail + max e 16 - q := by
  have hpa : getPrevAlloc s.mem (headerPtr s.blockTail) = ta.toNat :=
    hr.getPrevAlloc_eq (b := ⟨s.blockTail, 0, ta, true⟩) (by simp)
  rw [hpa]
  cases ta with
  | true =>
    refine ⟨allocSize, by simp, h8, le_rfl, fun P' ps q _ hq => ?_⟩
    rcases hq with ⟨-, -, rfl⟩ | ⟨p, -, -, -, hc, -⟩
    · omega
    · exact absurd hc (by simp)
  | false =>
    -- the last block is free; its footer stands below the tail
    obtain ⟨q, qa, hS, hB⟩ := hr.geo.blocks.split (List.cons_ne_nil _ _)
    obtain ⟨hq1, hq2⟩ := hB.head_eq
    rw [← hq1, ← hq2] at hS
    rcases List.eq_nil_or_concat' P with h | ⟨P', p, rfl⟩
    · exact absurd h hS.ne_nil
    · obtain ⟨hpf, hpe⟩ := hS.last
      have hpm : p ∈ P' ++ [p] ++ [⟨s.blockTail, 0, false, true⟩] := by simp
      have hsz : getSize s.mem (prevFooterPtr s.blockTail) = p.size := by
        rw [← hr.getSize_footer hpm hpf, hpe]
        rfl
      have hlt := hno p (by simp) hpf
      have hp8 := (hr.geo.sizeOk hpm).1
      refine ⟨allocSize - p.size, ?_, by omega, by omega, fun P'' ps q h hq => ?_⟩
      · rw [hsz, if_pos (by rfl : false.toNat = 0)]; unfold subSz; omega
      · rcases hq with ⟨-, hc, -⟩ | ⟨p', rfl, -, -, -, rfl, he⟩
        · exact absurd hc (by simp)
        · obtain ⟨-, hpp⟩ := List.append_inj' h rfl
          obtain rfl : p = p' := by simpa using hpp
          omega

/-- `mm_malloc` when a block fits. -/
theorem mmMalloc_of_fit {n r : ℕ} {s' : State} (hn : n ≠ 0)
    (hfind : segregatedFindBestFit s.arena.segregatedFreeLists s.mem (allocSizeOf n) = some r)
    (hr : r ≠ null) (hplace : s.place r (allocSizeOf n) = some s') : mmMalloc s n = some (r, s') := by
  simp only [mmMalloc, if_neg hn, hfind, Option.bind_eq_bind, Option.bind_some, if_pos hr, hplace]
  rfl

/-- `mm_malloc` when none does and the heap cannot grow. -/
theorem mmMalloc_of_full {n e : ℕ} {s₁ : State} (hn : n ≠ 0)
    (hfind : segregatedFindBestFit s.arena.segregatedFreeLists s.mem (allocSizeOf n) = some null)
    (he : (if getPrevAlloc s.mem (headerPtr s.blockTail) = 0 then
      subSz (allocSizeOf n) (getSize s.mem (prevFooterPtr s.blockTail)) else allocSizeOf n) = e)
    (hext : extendHeap s e = some (null, s₁)) : mmMalloc s n = some (null, s₁) := by
  simp only [mmMalloc, if_neg hn, hfind, he, Option.bind_eq_bind, Option.bind_some, hext]
  rfl

/-- `mm_malloc` when none does and the heap grows. -/
theorem mmMalloc_of_grown {n e bp : ℕ} {s₁ s' : State} (hn : n ≠ 0)
    (hfind : segregatedFindBestFit s.arena.segregatedFreeLists s.mem (allocSizeOf n) = some null)
    (he : (if getPrevAlloc s.mem (headerPtr s.blockTail) = 0 then
      subSz (allocSizeOf n) (getSize s.mem (prevFooterPtr s.blockTail)) else allocSizeOf n) = e)
    (hext : extendHeap s e = some (bp, s₁)) (hbp : bp ≠ null)
    (hplace : s₁.place bp (allocSizeOf n) = some s') : mmMalloc s n = some (bp, s') := by
  simp only [mmMalloc, if_neg hn, hfind, he, Option.bind_eq_bind, Option.bind_some, hext, if_neg hbp, hplace]
  rfl

/-- **`mm_malloc`** never aborts; it returns `NULL` and changes nothing (for size 0, or for want of
room), or a new block with enough bytes.  All payloads are kept. -/
theorem mmMalloc_spec (hI : Inv s L F) (n : ℕ) (hfits : MallocFits s n) :
    (mmMalloc s n = some (null, s) ∧
        (n = 0 ∨ 2 ^ 31 ≤ allocSizeOf n ∨ s.memMaxAddr < s.blockTail + allocSizeOf n)) ∨
      ∃ r s' L' F' t, mmMalloc s n = some (r, s') ∧ r ≠ null ∧ n ≠ 0 ∧ Inv s' L' F' ∧
        s'.arena = s.arena ∧ allocSizeOf n ≤ t ∧ (∀ u, ¬ Used L r u) ∧
        (∀ p u, Used L' p u ↔ Used L p u ∨ (p = r ∧ u = t)) ∧ Keeps L s.mem s'.mem := by
  by_cases hn : n = 0
  · left; exact ⟨by simp [mmMalloc, hn], Or.inl hn⟩
  obtain ⟨h16, h8, h32⟩ := allocSizeOf_spec n
  obtain ⟨r, hfind, hfit⟩ := segregatedFindBestFit_spec hI.toRep h16
  rcases hfit with ⟨rfl, hno⟩ | ⟨hr0, b, hb, hbf, rfl, hle, -⟩
  · -- nothing fits: the heap grows
    have hsum := hI.growthFits hfits hn hno
    obtain ⟨-, he'⟩ := hI.extendSize_eq h32 hno (by omega)
    obtain ⟨P, ta, rfl, -⟩ := hI.geo.blocks.exists_tail
    obtain ⟨e, he, he8, hele, hroom⟩ := extendSize_spec hI.toRep h8 h32
      (fun b hb => hno b (by simp [hb]))
    obtain rfl : allocSizeOf n - trailingFree s = e := he'.symm.trans he
    rw [growthOf, minBlockSize] at hsum
    generalize allocSizeOf n - trailingFree s = e at *
    rcases extendHeap_spec hI he8 (by omega) hsum with
      ⟨hfail, hwhy⟩ | ⟨P', ps, q, m', F', rfl, hq, hq0, hok, hI', hk⟩
    · left
      exact ⟨mmMalloc_of_full hn hfind he hfail, Or.inr (by omega)⟩
    · right
      have hfree : ∀ c ∈ ps, c.alloc = false := by
        rcases hq with ⟨rfl, -⟩ | ⟨p, rfl, hp, -⟩
        · simp
        · simpa using hp
      have hused : ∀ p u, Used (P' ++ [mergedBlock q (s.blockTail + max e 16)] ++
          [⟨s.blockTail + max e 16, 0, false, true⟩]) p u ↔
            Used (P' ++ ps ++ [⟨s.blockTail, 0, ta, true⟩]) p u := by
        intro p u
        rw [used_merge hfree, used_append, used_append (R := [_])]
        simp [used_cons]
      have hlen := hroom P' ps q rfl hq
      obtain ⟨m'', L', F'', t, h1, h2, h3, h4, h5⟩ := State.place_spec hI'
        (b := mergedBlock q (s.blockTail + max e 16)) (by simp) rfl h16 h8 hlen
      have hnot := hI'.geo.free_not_used (b := mergedBlock q (s.blockTail + max e 16)) (by simp) rfl
      refine ⟨q, _, L', F'', t, mmMalloc_of_grown hn hfind he hok hq0 h1, hq0, hn, h2, rfl, h3,
        fun u hu => hnot u ((hused _ _).mpr hu), fun p u => ?_,
        hk.trans (h5.mono fun p u => (hused p u).mpr)⟩
      rw [h4, hused]
      rfl
  · right
    obtain ⟨m', L', F', t, h1, h2, h3, h4, h5⟩ := State.place_spec hI hb hbf h16 h8 hle
    exact ⟨b.ptr, _, L', F', t, mmMalloc_of_fit hn hfind hr0 h1, hr0, hn, h2, rfl, h3,
      hI.geo.free_not_used hb hbf, h4, h5⟩

end Malloc

end Csapp.Malloc
