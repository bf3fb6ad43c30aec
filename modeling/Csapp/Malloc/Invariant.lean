import Csapp.Malloc.FreeList

/-!
# Malloc.Invariant — memory represents a heap of blocks and its free lists

`Geo A hi L`: the blocks `L` tile the heap of arena `A` from behind the head block to the break.
`Hdrs` / `Ftrs`: every header (every footer of a free block) holds the word of its block.
`Filed L F`: the lists `F` hold exactly the free blocks of `L`, each under the class of its size.
`Rep` puts these together with `FreeLists`; `Inv s L F` adds the absence of adjacent free blocks and
what the static variables hold: it is the invariant between two calls.  `Frame A L m m'` says that `m'` differs from `m`
only in bytes the allocator owns in `L`.
-/

namespace Csapp.Malloc

open Csapp.Lib

/-- The tiling of the heap behind the head block, below the end of the arena. -/
structure Geo (A : Arena) (hi : ℕ) (L : List Block) : Prop where
  blocks : Blocks hi (A.memStartBrk + 16) true L
  top : hi ≤ A.memStartBrk + maxHeap

/-- The headers of `L` are in memory. -/
def Hdrs (m : Mem) (L : List Block) : Prop := ∀ b ∈ L, load32 m (headerPtr b.ptr) = b.word

/-- The footers of the free blocks of `L` are in memory. -/
def Ftrs (m : Mem) (L : List Block) : Prop :=
  ∀ b ∈ L, b.alloc = false → load32 m (b.ptr + b.size - 8) = b.word

/-- Every list member is a free block. -/
def NodesIn (L : List Block) (F : Fin 10 → List ℕ) : Prop :=
  ∀ i, ∀ a ∈ F i, ∃ b ∈ L, b.alloc = false ∧ b.ptr = a

/-- The lists hold exactly the free blocks, each under the class of its size. -/
def Filed (L : List Block) (F : Fin 10 → List ℕ) : Prop :=
  ∀ i a, a ∈ F i ↔ ∃ b ∈ L, b.alloc = false ∧ b.ptr = a ∧ classOf b.size = i

/-- No free block follows a free block. -/
def Coalesced (L : List Block) : Prop := ∀ b ∈ L, b.alloc = false → b.prevAlloc = true

/-- `m'` agrees with `m` outside the allocator's bytes. -/
def Frame (A : Arena) (L : List Block) (m m' : Mem) : Prop :=
  ∀ y, ¬ Owned L y → (y < A.segregatedFreeLists ∨ A.segregatedFreeLists + 80 ≤ y) → m' y = m y

/-- Memory represents the blocks `L` and the lists `F`. -/
structure Rep (A : Arena) (hi : ℕ) (m : Mem) (L : List Block) (F : Fin 10 → List ℕ) : Prop where
  geo : Geo A hi L
  hdrs : Hdrs m L
  ftrs : Ftrs m L
  lists : FreeLists A m F
  filed : Filed L F

/-- **The invariant between two calls.** -/
structure Inv (s : State) (L : List Block) (F : Fin 10 → List ℕ) : Prop extends
    Rep s.arena s.blockTail s.mem L F where
  head : s.blockHead = s.arena.memStartBrk + 8
  brk : s.memBrk = s.blockTail
  headWord : load32 s.mem (headerPtr s.blockHead) = word 8 true true
  coalesced : Coalesced L

section Basics

variable {A : Arena} {hi : ℕ} {L K : List Block} {F : Fin 10 → List ℕ} {m m' m'' : Mem} {b c : Block}

theorem Filed.nodesIn (h : Filed L F) : NodesIn L F := fun i a ha => by
  obtain ⟨b, hb, hf, hp, -⟩ := (h i a).mp ha
  exact ⟨b, hb, hf, hp⟩

theorem Frame.refl (A : Arena) (L : List Block) (m : Mem) : Frame A L m m := fun _ _ _ => rfl

theorem Frame.trans (h₁ : Frame A L m m') (h₂ : Frame A L m' m'') : Frame A L m m'' :=
  fun y h1 h2 => (h₂ y h1 h2).trans (h₁ y h1 h2)

/-- Fewer bytes for the allocator is a stronger frame. -/
theorem Frame.mono (h : Frame A K m m') (hs : ∀ y, Owned K y → Owned L y) : Frame A L m m' :=
  fun y h1 h2 => h y (fun h' => h1 (hs y h')) h2

/-! ### Positions -/

theorem Geo.mem_in (hg : Geo A hi L) (hb : b ∈ L) : b.In (A.memStartBrk + 16) hi :=
  hg.blocks.mem_in hb

theorem Geo.sizeOk (hg : Geo A hi L) (hb : b ∈ L) : SizeOk b.size := by
  have h := hg.mem_in hb
  have := h.top; have := hg.top; have := A.start_top
  exact ⟨h.size_mod, by omega⟩

/-- The sum of a pointer and a size is not reduced. -/
theorem Geo.addSz_eq (hg : Geo A hi L) (hb : b ∈ L) : addSz b.ptr b.size = b.ptr + b.size := by
  have h := hg.mem_in hb
  have := h.top; have := hg.top; have := A.start_top
  exact Nat.mod_eq_of_lt (by omega)

theorem Geo.ptr_aligned (hg : Geo A hi L) (hb : b ∈ L) : b.ptr % 8 = 0 := by
  have h := hg.mem_in hb
  have := h.aligned; have := A.start_aligned
  omega

theorem Geo.ptr_pos (hg : Geo A hi L) (hb : b ∈ L) : 16 < b.ptr := by
  have h := hg.mem_in hb
  have := h.lo; have := A.start_pos
  omega

/-- The list heads lie outside the heap. -/
theorem headOf_outside (A : Arena) (i : Fin 10) :
    A.segregatedFreeLists ≤ headOf A i ∧ headOf A i + 8 ≤ A.segregatedFreeLists + 80 ∧
      (headOf A i + 8 ≤ A.memStartBrk ∨ A.memStartBrk + maxHeap ≤ headOf A i) := by
  have h1 := i.isLt
  have h2 := A.apart
  unfold headOf listHead
  omega

/-- A list node is apart from every header. -/
theorem Geo.node_hdr (hg : Geo A hi L) (hN : NodesIn L F) {n : ℕ} (hn : Node (headOf A) F n)
    (hb : b ∈ L) : n + 8 ≤ headerPtr b.ptr ∨ headerPtr b.ptr + 4 ≤ n := by
  have hbI := hg.mem_in hb
  have h1 := hbI.lo; have h2 := hbI.top; have h3 := hg.top
  unfold headerPtr
  rcases hn with ⟨i, rfl⟩ | ⟨i, hi⟩
  · have := headOf_outside A i; omega
  · obtain ⟨c, hc, hcf, rfl⟩ := hN i n hi
    have hc16 := hg.blocks.free_size hc hcf
    rcases hg.blocks.apart hc hb with rfl | h4 | h4 <;> omega

/-- A list node is apart from every footer. -/
theorem Geo.node_ftr (hg : Geo A hi L) (hN : NodesIn L F) {n : ℕ} (hn : Node (headOf A) F n)
    (hb : b ∈ L) (hbf : b.alloc = false) :
    n + 8 ≤ b.ptr + b.size - 8 ∨ b.ptr + b.size - 8 + 4 ≤ n := by
  have hbI := hg.mem_in hb
  have h1 := hbI.lo; have h2 := hbI.top; have h3 := hg.top
  have hb16 := hg.blocks.free_size hb hbf
  rcases hn with ⟨i, rfl⟩ | ⟨i, hi⟩
  · have := headOf_outside A i; omega
  · obtain ⟨c, hc, hcf, rfl⟩ := hN i n hi
    have hc16 := hg.blocks.free_size hc hcf
    rcases hg.blocks.apart hc hb with rfl | h4 | h4 <;> omega

theorem Geo.spaced (hg : Geo A hi L) (hN : NodesIn L F) : Spaced A F where
  apart a b ha hb hab := by
    have key : ∀ i, ∀ x ∈ F i, ∃ c ∈ L, c.alloc = false ∧ c.ptr = x ∧ 16 ≤ c.size ∧
        A.memStartBrk + 16 ≤ x ∧ x + c.size ≤ A.memStartBrk + maxHeap := by
      intro i x hx
      obtain ⟨c, hc, hcf, rfl⟩ := hN i x hx
      have h1 := (hg.mem_in hc).lo; have h2 := (hg.mem_in hc).top; have h3 := hg.top
      exact ⟨c, hc, hcf, rfl, hg.blocks.free_size hc hcf, h1, by omega⟩
    rcases ha with ⟨i, rfl⟩ | ⟨i, ha⟩ <;> rcases hb with ⟨j, rfl⟩ | ⟨j, hb⟩
    · unfold headOf listHead at hab ⊢; omega
    · obtain ⟨c, -, -, -, h1, h2, h3⟩ := key j b hb
      have := headOf_outside A i; omega
    · obtain ⟨c, -, -, -, h1, h2, h3⟩ := key i a ha
      have := headOf_outside A j; omega
    · obtain ⟨c, hc, -, rfl, h1, -, -⟩ := key i a ha
      obtain ⟨d, hd, -, rfl, h2, -, -⟩ := key j b hb
      rcases hg.blocks.apart hc hd with rfl | h3 | h3
      · exact absurd rfl hab
      · omega
      · omega
  top a ha := by
    rcases ha with ⟨i, rfl⟩ | ⟨i, ha⟩
    · have := headOf_outside A i; have := A.lists_top; omega
    · obtain ⟨c, hc, hcf, rfl⟩ := hN i a ha
      have h1 := (hg.mem_in hc).top; have h2 := hg.top; have := A.start_top
      have := hg.blocks.free_size hc hcf
      omega

/-- The link words of the nodes are allocator bytes. -/
theorem Geo.frame_nodes (hg : Geo A hi L) (hN : NodesIn L F)
    (h : ∀ y, (∀ n, Node (headOf A) F n → y < n ∨ n + 8 ≤ y) → m' y = m y) : Frame A L m m' := by
  intro y hy hl
  refine h y fun n hn => ?_
  rcases hn with ⟨i, rfl⟩ | ⟨i, hi⟩
  · have := headOf_outside A i; omega
  · obtain ⟨c, hc, hcf, rfl⟩ := hN i n hi
    have := hg.blocks.free_size hc hcf
    by_contra hc'
    exact hy ⟨c, hc, Or.inr ⟨hcf, by omega, by omega⟩⟩

/-- Storing a header of the tiling. -/
theorem Frame.store_hdr (A : Arena) (hb : b ∈ L) (h4 : 4 ≤ b.ptr) (v : ℕ) :
    Frame A L m (store32 m (headerPtr b.ptr) v) := by
  intro y hy _
  refine store32_out ?_
  by_contra hc
  unfold headerPtr at hc
  exact hy ⟨b, hb, Or.inl ⟨by omega, by omega⟩⟩

/-- Storing a word inside a free block of the tiling. -/
theorem Frame.store_free (A : Arena) (hb : b ∈ L) (hbf : b.alloc = false) {x : ℕ} (v : ℕ)
    (h1 : b.ptr ≤ x) (h2 : x + 8 ≤ b.ptr + b.size) : Frame A L m (store32 m x v) := by
  intro y hy _
  refine store32_out ?_
  by_contra hc
  exact hy ⟨b, hb, Or.inr ⟨hbf, by omega, by omega⟩⟩

/-! ### What the accessors return -/

theorem Rep.getSize_eq (hr : Rep A hi m L F) (hb : b ∈ L) : getSize m (headerPtr b.ptr) = b.size :=
  getSize_of_load (hr.geo.sizeOk hb) (hr.hdrs b hb)

theorem Rep.getAlloc_eq (hr : Rep A hi m L F) (hb : b ∈ L) :
    getAlloc m (headerPtr b.ptr) = b.alloc.toNat :=
  getAlloc_of_load (hr.geo.sizeOk hb) (hr.hdrs b hb)

theorem Rep.getPrevAlloc_eq (hr : Rep A hi m L F) (hb : b ∈ L) :
    getPrevAlloc m (headerPtr b.ptr) = b.prevAlloc.toNat :=
  getPrevAlloc_of_load (hr.geo.sizeOk hb) (hr.hdrs b hb)

theorem Rep.getSize_footer (hr : Rep A hi m L F) (hb : b ∈ L) (hbf : b.alloc = false) :
    getSize m (b.ptr + b.size - 8) = b.size :=
  getSize_of_load (hr.geo.sizeOk hb) (hr.ftrs b hb hbf)

theorem Rep.nextBlock_eq (hr : Rep A hi m L F) (hb : b ∈ L) :
    nextBlock m b.ptr = b.ptr + b.size := by
  rw [nextBlock, hr.getSize_eq hb, hr.geo.addSz_eq hb]

end Basics

/-! ## Headers and footers under list edits -/

section Meta

variable {A : Arena} {hi : ℕ} {L K : List Block} {F : Fin 10 → List ℕ} {m m' : Mem} {b : Block}

/-- The headers and footers of `K` are headers and footers of `L`. -/
def MetaIn (K L : List Block) : Prop :=
  ∀ b ∈ K, (∃ c ∈ L, c.ptr = b.ptr) ∧
    (b.alloc = false → ∃ c ∈ L, c.alloc = false ∧ c.ptr + c.size = b.ptr + b.size)

theorem MetaIn.refl (L : List Block) : MetaIn L L := fun b hb => ⟨⟨b, hb, rfl⟩, fun h => ⟨b, hb, h, rfl⟩⟩

/-- The header and footer words of `K` are the same in both memories. -/
structure MetaSame (m m' : Mem) (K : List Block) : Prop where
  hdr : ∀ b ∈ K, load32 m' (headerPtr b.ptr) = load32 m (headerPtr b.ptr)
  ftr : ∀ b ∈ K, b.alloc = false →
    load32 m' (b.ptr + b.size - 8) = load32 m (b.ptr + b.size - 8)

theorem MetaSame.hdrs (h : MetaSame m m' K) (hH : Hdrs m K) : Hdrs m' K :=
  fun b hb => (h.hdr b hb).trans (hH b hb)

theorem MetaSame.ftrs (h : MetaSame m m' K) (hH : Ftrs m K) : Ftrs m' K :=
  fun b hb hbf => (h.ftr b hb hbf).trans (hH b hb hbf)

/-- Writes to link words keep headers and footers. -/
theorem Geo.meta_of_nodes (hg : Geo A hi L) (hN : NodesIn L F) (hKL : MetaIn K L)
    (h : ∀ y, (∀ n, Node (headOf A) F n → y < n ∨ n + 8 ≤ y) → m' y = m y) : MetaSame m m' K := by
  refine ⟨fun b hb => ?_, fun b hb hbf => ?_⟩
  · obtain ⟨c, hc, hcp⟩ := (hKL b hb).1
    refine load32_congr fun y h1 h2 => h y fun n hn => ?_
    have := hg.node_hdr hN hn hc
    rw [hcp] at this
    omega
  · obtain ⟨c, hc, hcf, hcp⟩ := (hKL b hb).2 hbf
    refine load32_congr fun y h1 h2 => h y fun n hn => ?_
    have := hg.node_ftr hN hn hc hcf
    rw [hcp] at this
    omega

theorem NodesIn.erase (hN : NodesIn L F) (x : ℕ) : NodesIn L (fun j => (F j).erase x) :=
  fun i a ha => hN i a (List.mem_of_mem_erase ha)

/-- `free_list_erase` on a heap: the lists lose the block, headers and footers stay. -/
theorem Geo.erase_spec (hg : Geo A hi L) (hN : NodesIn L F) (hF : FreeLists A m F) {i : Fin 10}
    {x : ℕ} (hx : x ∈ F i) (hKL : MetaIn K L) :
    FreeLists A (segregatedFreeListErase m x) (fun j => (F j).erase x) ∧
      Frame A L m (segregatedFreeListErase m x) ∧
      MetaSame m (segregatedFreeListErase m x) K := by
  obtain ⟨h1, h2⟩ := listErase_spec hF (hg.spaced hN) hx
  exact ⟨h1, hg.frame_nodes hN h2, hg.meta_of_nodes hN hKL h2⟩

/-- `free_list_insert` of a free block that is in no list. -/
theorem Geo.insert_spec (hg : Geo A hi L) (hN : NodesIn L F) (hF : FreeLists A m F) (hb : b ∈ L)
    (hbf : b.alloc = false) (hx : ∀ i, b.ptr ∉ F i)
    (hbh : load32 m (headerPtr b.ptr) = b.word) :
    ∃ m', segregatedFreeListInsert A.segregatedFreeLists m b.ptr = some m' ∧
      FreeLists A m' (Function.update F (classOf b.size) (b.ptr :: F (classOf b.size))) ∧
      Frame A L m m' ∧ MetaSame m m' L := by
  have h16 := hg.blocks.free_size hb hbf
  have hsz : getSize m (headerPtr b.ptr) = b.size := getSize_of_load (hg.sizeOk hb) hbh
  have hins : segregatedFreeListInsert A.segregatedFreeLists m b.ptr =
      some (listPushFront m (headOf A (classOf b.size)) b.ptr) := by
    simp only [segregatedFreeListInsert, hsz, lowerBound_eq h16]
    rfl
  -- with `b` listed, all nodes are free blocks of `L`
  set F' := Function.update F (classOf b.size) (b.ptr :: F (classOf b.size)) with hF'
  have hN' : NodesIn L F' := by
    intro i a ha
    rcases Rings.mem_push_iff.mp ha with ha | ⟨rfl, -⟩
    · exact hN _ a ha
    · exact ⟨b, hb, hbf, rfl⟩
  have hnode : ∀ n, Node (headOf A) F n → Node (headOf A) F' n := by
    rintro n (hn | ⟨i, hn⟩)
    · exact Or.inl hn
    · exact Or.inr ⟨i, Rings.mem_push_iff.mpr (Or.inl hn)⟩
  have hbN : Node (headOf A) F' b.ptr :=
    Or.inr ⟨classOf b.size, Rings.mem_push_iff.mpr (Or.inr ⟨rfl, rfl⟩)⟩
  have hS' := hg.spaced hN'
  have hnb : ∀ n, Node (headOf A) F n → b.ptr ≠ n := by
    rintro n (⟨i, hn⟩ | ⟨i, hn⟩) rfl
    · have h1 := headOf_outside A i; have h2 := hg.mem_in hb; have := h2.lo; have := h2.top
      have := hg.top
      omega
    · exact hx i hn
  obtain ⟨h1, h2⟩ := listPushFront_spec (x := b.ptr) hF (hg.spaced hN) (classOf b.size)
    (fun n hn => hS'.apart _ _ hbN (hnode n hn) (hnb n hn)) (hS'.top _ hbN)
  have h3 : ∀ y, (∀ n, Node (headOf A) F' n → y < n ∨ n + 8 ≤ y) →
      listPushFront m (headOf A (classOf b.size)) b.ptr y = m y :=
    fun y hy => h2 y (hy _ hbN) fun n hn => hy n (hnode n hn)
  exact ⟨_, hins, h1, hg.frame_nodes hN' h3, hg.meta_of_nodes hN' (MetaIn.refl L) h3⟩

/-! ### Storing a header or a footer -/

theorem Geo.hdr_hdr (hg : Geo A hi L) (hb : b ∈ L) {c : Block} (hc : c ∈ L) (hne : c ≠ b) (v : ℕ) :
    load32 (store32 m (headerPtr b.ptr) v) (headerPtr c.ptr) = load32 m (headerPtr c.ptr) := by
  have h1 := hg.ptr_pos hb; have h2 := hg.ptr_pos hc
  have h3 := hg.ptr_aligned hb; have h4 := hg.ptr_aligned hc
  refine load32_store32_of_disjoint ?_
  unfold headerPtr
  rcases hg.blocks.apart hc hb with h | h | h
  · exact absurd h hne
  · omega
  · omega

theorem Geo.hdr_ftr (hg : Geo A hi L) (hb : b ∈ L) {c : Block} (hc : c ∈ L)
    (hcf : c.alloc = false) (v : ℕ) :
    load32 (store32 m (headerPtr b.ptr) v) (c.ptr + c.size - 8) =
      load32 m (c.ptr + c.size - 8) := by
  have h1 := hg.ptr_pos hb; have h2 := hg.blocks.free_size hc hcf
  refine load32_store32_of_disjoint ?_
  unfold headerPtr
  rcases hg.blocks.apart hc hb with rfl | h | h <;> omega

theorem Geo.ftr_hdr (hg : Geo A hi L) (hb : b ∈ L) (hbf : b.alloc = false) {c : Block} (hc : c ∈ L)
    (v : ℕ) :
    load32 (store32 m (b.ptr + b.size - 8) v) (headerPtr c.ptr) = load32 m (headerPtr c.ptr) := by
  have h1 := hg.ptr_pos hc; have h2 := hg.blocks.free_size hb hbf
  refine load32_store32_of_disjoint ?_
  unfold headerPtr
  rcases hg.blocks.apart hc hb with rfl | h | h <;> omega

theorem Geo.ftr_ftr (hg : Geo A hi L) (hb : b ∈ L) (hbf : b.alloc = false) {c : Block} (hc : c ∈ L)
    (hcf : c.alloc = false) (hne : c ≠ b) (v : ℕ) :
    load32 (store32 m (b.ptr + b.size - 8) v) (c.ptr + c.size - 8) =
      load32 m (c.ptr + c.size - 8) := by
  have h1 := hg.blocks.free_size hc hcf; have h2 := hg.blocks.free_size hb hbf
  refine load32_store32_of_disjoint ?_
  rcases hg.blocks.apart hc hb with h | h | h
  · exact absurd h hne
  · omega
  · omega

/-- Storing the header of `b`. -/
theorem Geo.store_hdr (hg : Geo A hi L) (hb : b ∈ L)
    (hH : ∀ c ∈ L, c ≠ b → load32 m (headerPtr c.ptr) = c.word) :
    Hdrs (store32 m (headerPtr b.ptr) b.word) L := by
  intro c hc
  by_cases hcb : c = b
  · subst hcb
    exact load32_store32_same (word_lt (hg.sizeOk hc) _ _)
  · rw [hg.hdr_hdr hb hc hcb, hH c hc hcb]

/-- Storing header and footer of the free block `b`. -/
theorem Geo.store_free (hg : Geo A hi L) (hb : b ∈ L) (hbf : b.alloc = false)
    (hH : ∀ c ∈ L, c ≠ b → load32 m (headerPtr c.ptr) = c.word)
    (hFt : ∀ c ∈ L, c ≠ b → c.alloc = false → load32 m (c.ptr + c.size - 8) = c.word) :
    Hdrs (store32 (store32 m (headerPtr b.ptr) b.word) (b.ptr + b.size - 8) b.word) L ∧
      Ftrs (store32 (store32 m (headerPtr b.ptr) b.word) (b.ptr + b.size - 8) b.word) L := by
  refine ⟨fun c hc => ?_, fun c hc hcf => ?_⟩
  · rw [hg.ftr_hdr hb hbf hc]
    exact hg.store_hdr hb hH c hc
  · by_cases hcb : c = b
    · subst hcb
      exact load32_store32_same (word_lt (hg.sizeOk hc) _ _)
    · rw [hg.ftr_ftr hb hbf hc hcf hcb, hg.hdr_ftr hb hc hcf, hFt c hc hcb hcf]

theorem syncFooter_eq (hs : SizeOk b.size) (ha : addSz b.ptr b.size = b.ptr + b.size)
    (hl : load32 m (headerPtr b.ptr) = b.word) : syncFooter m b.ptr = store32 m (b.ptr + b.size - 8) b.word := by
  rw [syncFooter, footerPtr, getSize_of_load hs hl, ha, hl]

/-- `set_meta` on a header followed by `sync_footer`, for a free block. -/
theorem setMeta_syncFooter (hs : SizeOk b.size) (ha : addSz b.ptr b.size = b.ptr + b.size) (hbf : b.alloc = false) :
    syncFooter (setMeta m (headerPtr b.ptr) b.size b.prevAlloc.toNat 0) b.ptr =
      store32 (store32 m (headerPtr b.ptr) b.word) (b.ptr + b.size - 8) b.word := by
  have h1 : setMeta m (headerPtr b.ptr) b.size b.prevAlloc.toNat 0 =
      store32 m (headerPtr b.ptr) b.word := by
    have := setMeta_eq (m := m) (p := headerPtr b.ptr) hs b.prevAlloc false
    rw [Block.word, hbf]
    exact this
  rw [h1, syncFooter_eq hs ha (load32_store32_same (word_lt hs _ _))]

/-- Storing a header keeps the lists. -/
theorem Geo.lists_hdr (hg : Geo A hi L) (hN : NodesIn L F) (hF : FreeLists A m F) (hb : b ∈ L)
    (v : ℕ) : FreeLists A (store32 m (headerPtr b.ptr) v) F :=
  hF.store32 fun n hn => by have := hg.node_hdr hN hn hb; omega

/-- Storing a footer keeps the lists. -/
theorem Geo.lists_ftr (hg : Geo A hi L) (hN : NodesIn L F) (hF : FreeLists A m F) (hb : b ∈ L)
    (hbf : b.alloc = false) (v : ℕ) : FreeLists A (store32 m (b.ptr + b.size - 8) v) F :=
  hF.store32 fun n hn => by have := hg.node_ftr hN hn hb hbf; omega

end Meta

/-! ## Replacing a run of blocks -/

section Splice

variable {A : Arena} {hi : ℕ} {P X Y R : List Block} {F F' : Fin 10 → List ℕ}

/-- The lists after the blocks `X` have been replaced by `Y`. -/
theorem Filed.splice (hg : Geo A hi (P ++ X ++ R)) (hF : Filed (P ++ X ++ R) F)
    (h : ∀ i a, a ∈ F' i ↔ (a ∈ F i ∧ ∀ x ∈ X, a ≠ x.ptr) ∨
      ∃ y ∈ Y, y.alloc = false ∧ y.ptr = a ∧ classOf y.size = i) :
    Filed (P ++ Y ++ R) F' := by
  intro i a
  rw [h, hF i a]
  constructor
  · rintro (⟨⟨b, hb, hbf, rfl, hbi⟩, hX⟩ | ⟨y, hy, hyf, hya, hyi⟩)
    · refine ⟨b, ?_, hbf, rfl, hbi⟩
      simp only [List.mem_append] at hb ⊢
      rcases hb with (hb | hb) | hb
      · exact Or.inl (Or.inl hb)
      · exact absurd rfl (hX b hb)
      · exact Or.inr hb
    · exact ⟨y, by simp [hy], hyf, hya, hyi⟩
  · rintro ⟨b, hb, hbf, rfl, hbi⟩
    simp only [List.mem_append] at hb
    by_cases hY : b ∈ Y
    · exact Or.inr ⟨b, hY, hbf, rfl, hbi⟩
    · have hPR : b ∈ P ∨ b ∈ R := by tauto
      have hbL : b ∈ P ++ X ++ R := by simp only [List.mem_append]; tauto
      refine Or.inl ⟨⟨b, hbL, hbf, rfl, hbi⟩, fun x hx e => ?_⟩
      -- a block outside `X` has another pointer than the blocks of `X`
      have hXR : X ++ R ≠ [] := by
        intro h0; rw [List.append_eq_nil_iff] at h0; rw [h0.1] at hx; simp at hx
      have hb' := hg.blocks
      rw [List.append_assoc] at hb'
      obtain ⟨q, qa, hS, hB⟩ := hb'.split hXR
      have hxI := hB.mem_in (List.mem_append_left R hx)
      rcases hPR with hbP | hbR
      · have := hS.mem_in hbP
        have := this.1.top; have := hxI.lo; have := this; omega
      · obtain ⟨r, ra, hS', hB'⟩ := hB.split (List.ne_nil_of_mem hbR)
        have h1 := hS'.mem_in hx
        have h2 := h1.1.top; have h3 := (hB'.mem_in hbR).lo
        omega

end Splice

end Csapp.Malloc
