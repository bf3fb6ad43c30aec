import Csapp.Malloc.Coalesce

/-!
# Malloc.Free — giving blocks back: `mm_free` and `extend_heap`

`Used L p size`: `p` is a block in use.  `Keeps L m m'`: the payloads of all blocks in use are the same.
Both functions turn an address range into a free block and coalesce it (`Geo.release_spec`);
`mmFree_spec` and `extendHeap_spec` say what that does to the blocks, from one heap with `Inv` to
another.
-/

namespace Csapp.Malloc

open Csapp.Lib

/-- `p` is an allocated block of `size` bytes. -/
def Used (L : List Block) (p size : ℕ) : Prop :=
  ∃ b ∈ L, b.alloc = true ∧ 16 ≤ b.size ∧ b.ptr = p ∧ b.size = size

/-- The `n` bytes at `p` are the same in both memories. -/
def SameAt (m m' : Mem) (p n : ℕ) : Prop := ∀ y, p ≤ y → y < p + n → m' y = m y

/-- The payloads of all allocated blocks are the same in both memories. -/
def Keeps (L : List Block) (m m' : Mem) : Prop := ∀ p size, Used L p size → SameAt m m' p (size - 4)

section Frames

variable {A : Arena} {hi hi' : ℕ} {L L' K : List Block} {m m' m'' : Mem} {F : Fin 10 → List ℕ}
  {b n : Block}

theorem Keeps.refl (L : List Block) (m : Mem) : Keeps L m m := fun _ _ _ _ _ _ => rfl

theorem Keeps.trans (h₁ : Keeps L m m') (h₂ : Keeps L m' m'') : Keeps L m m'' :=
  fun p size hu y h1 h2 => (h₂ p size hu y h1 h2).trans (h₁ p size hu y h1 h2)

theorem Keeps.mono (h : Keeps K m m') (hs : ∀ p size, Used L p size → Used K p size) :
    Keeps L m m' := fun p size hu => h p size (hs p size hu)

/-- A frame keeps the payloads of the allocated blocks. -/
theorem Geo.keeps (hg : Geo A hi L) (hf : Frame A L m m') : Keeps L m m' := by
  rintro p size ⟨b, hb, hba, h16, rfl, rfl⟩ y h1 h2
  have hI := hg.mem_in hb
  have := hI.lo; have := hI.top; have := hg.top; have := A.apart
  exact hf y (hg.blocks.not_owned ⟨b, hb, hba, h1, by omega⟩) (by omega)

/-- A frame keeps the header of the head block. -/
theorem Geo.headWord (hg : Geo A hi L) (hf : Frame A L m m') :
    load32 m' (A.memStartBrk + 4) = load32 m (A.memStartBrk + 4) := by
  refine load32_congr fun y h1 h2 => hf y ?_ ?_
  · rintro ⟨b, hb, h3⟩
    have := (hg.mem_in hb).lo
    omega
  · have := A.apart; unfold maxHeap at this; omega

theorem used_append {P R : List Block} {p size : ℕ} :
    Used (P ++ R) p size ↔ Used P p size ∨ Used R p size := by
  unfold Used
  simp only [List.mem_append]
  constructor
  · rintro ⟨b, hb | hb, h⟩
    · exact Or.inl ⟨b, hb, h⟩
    · exact Or.inr ⟨b, hb, h⟩
  · rintro (⟨b, hb, h⟩ | ⟨b, hb, h⟩)
    · exact ⟨b, Or.inl hb, h⟩
    · exact ⟨b, Or.inr hb, h⟩

theorem used_cons {R : List Block} {p size : ℕ} :
    Used (b :: R) p size ↔
      (b.alloc = true ∧ 16 ≤ b.size ∧ b.ptr = p ∧ b.size = size) ∨ Used R p size := by
  unfold Used
  constructor
  · rintro ⟨c, hc, h⟩
    rcases List.mem_cons.mp hc with rfl | hc
    · exact Or.inl h
    · exact Or.inr ⟨c, hc, h⟩
  · rintro (h | ⟨c, hc, h⟩)
    · exact ⟨b, List.mem_cons_self, h⟩
    · exact ⟨c, List.mem_cons_of_mem _ hc, h⟩

@[simp] theorem used_nil {p size : ℕ} : ¬ Used [] p size := by
  rintro ⟨b, hb, -⟩; simp at hb

theorem used_cons_free {R : List Block} {p size : ℕ} (hb : b.alloc = false) :
    Used (b :: R) p size ↔ Used R p size := by
  simp [used_cons, hb]

theorem used_cons_alloc {R : List Block} {p size : ℕ} (hb : b.alloc = true) (h16 : 16 ≤ b.size) :
    Used (b :: R) p size ↔ (p = b.ptr ∧ size = b.size) ∨ Used R p size := by
  rw [used_cons]
  simp only [hb, h16, true_and, eq_comm]

/-- The `prev_alloc` flag does not matter. -/
theorem used_cons_setPrev {R : List Block} {p size : ℕ} (pa : Bool) :
    Used ({ b with prevAlloc := pa } :: R) p size ↔ Used (b :: R) p size := by
  simp only [used_cons]

/-- Blocks in use in front of `b` end before it, those behind start after it. -/
theorem Geo.used_order {P R : List Block} (hg : Geo A hi (P ++ b :: n :: R)) :
    (∀ p u, Used P p u → p + u ≤ b.ptr ∧ 16 ≤ u) ∧ ∀ p u, Used (n :: R) p u → b.ptr + b.size ≤ p := by
  obtain ⟨q, qa, hS, hB⟩ := hg.blocks.split (List.cons_ne_nil _ _)
  obtain ⟨hbq, -, -, -, hBn⟩ := hB.uncons
  refine ⟨?_, ?_⟩
  · rintro p u ⟨c, hc, -, h16, rfl, rfl⟩
    have := (hS.mem_in hc).1.top
    exact ⟨by omega, h16⟩
  · rintro p u ⟨c, hc, -, -, rfl, -⟩
    exact (hBn.mem_in hc).lo

/-- The blocks in use of `P ++ b :: n :: R` other than `b`. -/
theorem Geo.used_rest {P R : List Block} (hg : Geo A hi (P ++ b :: n :: R)) (hba : b.alloc = true)
    (h16 : 16 ≤ b.size) (q w : ℕ) :
    (Used (P ++ b :: n :: R) q w ∧ q ≠ b.ptr ↔ Used P q w ∨ Used (n :: R) q w) ∧
      (Used (P ++ b :: n :: R) q w ↔
        (Used P q w ∨ Used (n :: R) q w) ∨ (q = b.ptr ∧ w = b.size)) := by
  obtain ⟨hlo, hhi⟩ := hg.used_order
  have hL : Used (P ++ b :: n :: R) q w ↔
      (Used P q w ∨ Used (n :: R) q w) ∨ (q = b.ptr ∧ w = b.size) := by
    rw [used_append, used_cons_alloc hba h16, or_left_comm]
    exact or_comm
  refine ⟨?_, hL⟩
  rw [hL]
  constructor
  · rintro ⟨h | ⟨h, -⟩, hne⟩
    · exact h
    · exact absurd h hne
  · refine fun h => ⟨Or.inl h, ?_⟩
    rintro rfl
    rcases h with h | h
    · have := hlo _ _ h; omega
    · have := hhi _ _ h; omega

/-- A free block is not in use. -/
theorem Geo.free_not_used (hg : Geo A hi L) (hb : b ∈ L) (hbf : b.alloc = false) (s : ℕ) :
    ¬ Used L b.ptr s := by
  rintro ⟨c, hc, hca, -, hcp, -⟩
  rw [hg.blocks.eq_of_ptr hc hb hcp, hbf] at hca
  exact absurd hca (by simp)

/-- Every proper block has a successor. -/
theorem Blocks.exists_next {p : ℕ} {pa : Bool} (h : Blocks hi p pa L) (hb : b ∈ L)
    (h16 : 16 ≤ b.size) : ∃ P n R, L = P ++ b :: n :: R := by
  obtain ⟨P, R, rfl⟩ := List.append_of_mem hb
  cases R with
  | nil =>
    obtain ⟨q, qa, -, h'⟩ := h.split (List.cons_ne_nil _ _)
    cases h' with
    | tail => simp at h16
    | cons size alloc _ _ h'' => exact absurd rfl h''.ne_nil
  | cons n R => exact ⟨P, n, R, rfl⟩

/-- Around a free block of a heap that is otherwise coalesced there is a run. -/
theorem Geo.exists_run {P R : List Block} (hg : Geo A hi (P ++ b :: n :: R)) (hbf : b.alloc = false)
    (hP : Coalesced P) :
    ∃ P' ps ns R', P = P' ++ ps ∧ Run P' ps b ns R' ∧
      ((ns = [] ∧ R' = n :: R) ∨ (ns = [n] ∧ R' = R ∧ n.alloc = false)) := by
  obtain ⟨q, qa, hS, hB⟩ := hg.blocks.split (List.cons_ne_nil _ _)
  obtain ⟨-, hbq, -, -, hB'⟩ := hB.uncons
  -- the block before is free if its flag says so
  obtain ⟨P', ps, hPs, hbefore⟩ : ∃ P' ps, P = P' ++ ps ∧
      ((ps = [] ∧ b.prevAlloc = true) ∨ ∃ p, ps = [p] ∧ p.alloc = false ∧ p.prevAlloc = true) := by
    cases hpa : b.prevAlloc with
    | true => exact ⟨P, [], by simp, Or.inl ⟨rfl, rfl⟩⟩
    | false =>
      rw [← hbq, hpa] at hS
      rcases List.eq_nil_or_concat' P with h | ⟨P', c, rfl⟩
      · exact absurd h hS.ne_nil
      · have hcf := hS.last.1
        exact ⟨P', [c], rfl, Or.inr ⟨c, rfl, hcf, hP c (by simp) hcf⟩⟩
  -- the block behind is free, or the run ends with `b`
  cases hna : n.alloc with
  | true => exact ⟨P', ps, [], n :: R, hPs, ⟨hbf, hbefore, Or.inl ⟨rfl, n, R, rfl, hna⟩⟩,
      Or.inl ⟨rfl, rfl⟩⟩
  | false =>
    have hR : R ≠ [] := by
      rintro rfl
      cases hB' with
      | tail => simp at hna
      | cons size alloc _ _ h => exact absurd rfl h.ne_nil
    exact ⟨P', ps, [n], R, hPs, ⟨hbf, hbefore, Or.inr ⟨n, rfl, hna, hR⟩⟩, Or.inr ⟨rfl, rfl, rfl⟩⟩

end Frames

/-! ## Giving a block back

`mm_free` and `extend_heap` end in the same way: header and footer of the new free block are written,
it is inserted, the flag of the block behind it is cleared, and it is coalesced. -/

section Release

variable {A : Arena} {hi : ℕ} {P R L : List Block} {F : Fin 10 → List ℕ} {m : Mem} {b n : Block}

/-- The heap after the first three steps, for a free block `b` that is not filed yet. -/
theorem Geo.release_write (hg : Geo A hi (P ++ b :: n :: R)) (hbf : b.alloc = false)
    (hH : Hdrs m (P ++ R)) (hFt : Ftrs m (P ++ R)) (hF : FreeLists A m F)
    (hfl : Filed (P ++ n :: R) F) :
    ∃ m₃ F₃, segregatedFreeListInsert A.segregatedFreeLists
        (store32 (store32 m (headerPtr b.ptr) b.word) (b.ptr + b.size - 8) b.word) b.ptr = some m₃ ∧
      load32 m₃ (headerPtr b.ptr) = b.word ∧
      load32 m₃ (headerPtr n.ptr) = load32 m (headerPtr n.ptr) ∧
      FreeLists A m₃ F₃ ∧ Filed (P ++ b :: n :: R) F₃ ∧ Frame A (P ++ b :: n :: R) m m₃ ∧
      Hdrs m₃ (P ++ b :: R) ∧ Ftrs m₃ (P ++ b :: R) := by
  have hb : b ∈ P ++ b :: n :: R := by simp
  have hn : n ∈ P ++ b :: n :: R := by simp
  have hbs := hg.sizeOk hb
  have hb16 := hg.blocks.free_size hb hbf
  have hb4 := hg.ptr_pos hb
  -- no other block has the pointer of `b`
  obtain ⟨q, qa, hS, hB⟩ := hg.blocks.split (List.cons_ne_nil _ _)
  obtain ⟨hbq, -, -, -, hBn⟩ := hB.uncons
  have hother : ∀ c ∈ P ++ n :: R, c ∈ P ++ b :: n :: R ∧ c.ptr ≠ b.ptr := by
    intro c hc
    rcases List.mem_append.mp hc with hc | hc
    · have := (hS.mem_in hc).1.top; have := (hS.mem_in hc).2
      exact ⟨by simp [hc], by omega⟩
    · have := (hBn.mem_in hc).lo
      exact ⟨List.mem_append_right _ (List.mem_cons_of_mem _ hc), by omega⟩
  have hne : ∀ c ∈ P ++ n :: R, c ≠ b := fun c hc e => (hother c hc).2 (by rw [e])
  set m₂ := store32 (store32 m (headerPtr b.ptr) b.word) (b.ptr + b.size - 8) b.word with hm₂
  have hhdr2 : ∀ c ∈ P ++ n :: R, load32 m₂ (headerPtr c.ptr) = load32 m (headerPtr c.ptr) :=
    fun c hc => by rw [hm₂, hg.ftr_hdr hb hbf (hother c hc).1, hg.hdr_hdr hb (hother c hc).1 (hne c hc)]
  have hftr2 : ∀ c ∈ P ++ n :: R, c.alloc = false →
      load32 m₂ (c.ptr + c.size - 8) = load32 m (c.ptr + c.size - 8) := fun c hc hcf => by
    rw [hm₂, hg.ftr_ftr hb hbf (hother c hc).1 hcf (hne c hc), hg.hdr_ftr hb (hother c hc).1 hcf]
  have hb2 : load32 m₂ (headerPtr b.ptr) = b.word := by
    rw [hm₂, hg.ftr_hdr hb hbf hb]; exact load32_store32_same (word_lt hbs _ _)
  have hb3 : load32 m₂ (b.ptr + b.size - 8) = b.word := load32_store32_same (word_lt hbs _ _)
  -- the lists: `b` is in none of them
  have hN : NodesIn (P ++ b :: n :: R) F := by
    intro i a ha
    obtain ⟨c, hc, hcf, rfl⟩ := hfl.nodesIn i a ha
    exact ⟨c, (hother c hc).1, hcf, rfl⟩
  have hbF : ∀ i, b.ptr ∉ F i := by
    intro i hi
    obtain ⟨c, hc, -, hcp⟩ := hfl.nodesIn i _ hi
    exact (hother c hc).2 hcp
  have hl2 : FreeLists A m₂ F := hg.lists_ftr hN (hg.lists_hdr hN hF hb _) hb hbf _
  obtain ⟨m₃, hins, hl3, hf3, hms3⟩ := hg.insert_spec hN hl2 hb hbf hbF hb2
  have hf2 : Frame A (P ++ b :: n :: R) m m₂ :=
    (Frame.store_hdr A hb (by omega) _).trans
      (Frame.store_free A hb hbf _ (by omega) (by omega))
  refine ⟨m₃, _, hins, (hms3.hdr b hb).trans hb2, ?_, hl3, ?_, hf2.trans hf3, ?_, ?_⟩
  · exact (hms3.hdr n hn).trans (hhdr2 n (by simp))
  · intro i a
    rw [Rings.mem_push_iff, hfl i a]
    constructor
    · rintro (⟨c, hc, h⟩ | ⟨rfl, rfl⟩)
      · exact ⟨c, (hother c hc).1, h⟩
      · exact ⟨b, hb, hbf, rfl, rfl⟩
    · rintro ⟨c, hc, hcf, hcp, hci⟩
      simp only [List.mem_append, List.mem_cons] at hc
      rcases hc with hc | rfl | hc
      · exact Or.inl ⟨c, by simp [hc], hcf, hcp, hci⟩
      · exact Or.inr ⟨hcp.symm, hci.symm⟩
      · exact Or.inl ⟨c, by simpa using Or.inr hc, hcf, hcp, hci⟩
  · intro c hc
    simp only [List.mem_append, List.mem_cons] at hc
    rcases hc with hc | rfl | hc
    · rw [hms3.hdr c (by simp [hc]), hhdr2 c (by simp [hc])]; exact hH c (by simp [hc])
    · exact (hms3.hdr c hb).trans hb2
    · rw [hms3.hdr c (by simp [hc]), hhdr2 c (by simp [hc])]; exact hH c (by simp [hc])
  · intro c hc hcf
    simp only [List.mem_append, List.mem_cons] at hc
    rcases hc with hc | rfl | hc
    · rw [hms3.ftr c (by simp [hc]) hcf, hftr2 c (by simp [hc]) hcf]; exact hFt c (by simp [hc]) hcf
    · exact (hms3.ftr c hb hcf).trans hb3
    · rw [hms3.ftr c (by simp [hc]) hcf, hftr2 c (by simp [hc]) hcf]; exact hFt c (by simp [hc]) hcf

/-- The whole sequence: `b` and its free neighbours become one free block. -/
theorem Geo.release_spec (hg : Geo A hi (P ++ b :: n :: R)) (hbf : b.alloc = false)
    (hH : Hdrs m (P ++ R)) (hFt : Ftrs m (P ++ R)) (hF : FreeLists A m F)
    (hfl : Filed (P ++ n :: R) F) (hP : Coalesced P) :
    ∃ m₃ P' ps ns R' q q' m' F', segregatedFreeListInsert A.segregatedFreeLists
        (store32 (store32 m (headerPtr b.ptr) b.word) (b.ptr + b.size - 8) b.word) b.ptr = some m₃ ∧
      load32 m₃ (headerPtr b.ptr) = b.word ∧
      load32 m₃ (headerPtr n.ptr) = load32 m (headerPtr n.ptr) ∧
      coalesce A.segregatedFreeLists (store32 m₃ (headerPtr n.ptr) n.word) b.ptr = some (q, m') ∧
      P = P' ++ ps ∧ Run P' ps b ns R' ∧ n :: R = ns ++ R' ∧
      Seg q true (ps ++ b :: ns) q' false ∧ Rep A hi m' (P' ++ [mergedBlock q q'] ++ R') F' ∧
      Frame A (P ++ b :: n :: R) m m' := by
  obtain ⟨m₃, F₃, h1, h2, h3, h4, h5, h6, h7, h8⟩ := hg.release_write hbf hH hFt hF hfl
  have hn : n ∈ P ++ b :: n :: R := by simp
  have hn4 := hg.ptr_pos hn
  set m₄ := store32 m₃ (headerPtr n.ptr) n.word with hm₄
  have hsub : ∀ c ∈ P ++ b :: n :: R, c = n ∨ c ∈ P ++ b :: R := by
    intro c hc
    rwa [mem_middle, mem_middle, or_left_comm, ← mem_middle] at hc
  have hH4 : Hdrs m₄ (P ++ b :: n :: R) :=
    hg.store_hdr hn fun c hc hcn => h7 c ((hsub c hc).resolve_left hcn)
  have hF4 : ∀ c ∈ P ++ b :: R, c.alloc = false → load32 m₄ (c.ptr + c.size - 8) = c.word := by
    intro c hc hcf
    have hc' : c ∈ P ++ b :: n :: R := by
      rw [mem_middle] at hc ⊢
      exact hc.imp_right fun h => mem_middle.mpr (Or.inr h)
    rw [hm₄, hg.hdr_ftr hn hc' hcf]
    exact h8 c hc hcf
  have hl4 : FreeLists A m₄ F₃ := hg.lists_hdr h5.nodesIn h4 hn _
  have hf4 : Frame A (P ++ b :: n :: R) m m₄ := h6.trans (Frame.store_hdr A hn (by omega) _)
  obtain ⟨P', ps, ns, R', rfl, hrun, hns⟩ := hg.exists_run hbf hP
  have hnR : n :: R = ns ++ R' := by
    rcases hns with ⟨rfl, rfl⟩ | ⟨rfl, rfl, -⟩ <;> rfl
  have hL : P' ++ ps ++ b :: n :: R = P' ++ (ps ++ b :: ns) ++ R' := by
    rw [hnR]; simp
  -- the only footer that is not up to date is that of `n`, and `n` is absorbed if it is free
  have hF4' : Ftrs m₄ (P' ++ (ps ++ [b]) ++ R') := by
    intro c hc hcf
    refine hF4 c ?_ hcf
    simp only [List.mem_append, List.mem_cons, List.not_mem_nil, or_false] at hc ⊢
    rcases hc with (hc | hc | hc) | hc
    · exact Or.inl (Or.inl hc)
    · exact Or.inl (Or.inr hc)
    · exact Or.inr (Or.inl hc)
    · rcases hns with ⟨rfl, rfl⟩ | ⟨rfl, rfl, -⟩
      · rcases List.mem_cons.mp hc with rfl | hc
        · rcases hrun.behind with ⟨-, d, S, hd, hda⟩ | ⟨d, hd, -⟩
          · rw [(List.cons_eq_cons.mp hd).1, hda] at hcf
            exact absurd hcf (by simp)
          · simp at hd
        · exact Or.inr (Or.inr hc)
      · exact Or.inr (Or.inr hc)
  rw [hL] at hg hH4 h5 hf4 ⊢
  obtain ⟨q, q', m', F', -, hX, -, hco, hrep, hfr⟩ := coalesce_spec hrun hg hH4 hF4' hl4 h5
  exact ⟨m₃, P', ps, ns, R', q, q', m', F', h1, h2, h3, hco, rfl, hrun, hnR, hX, hrep, hf4.trans hfr⟩

/-- The blocks in use after a run has been merged. -/
theorem used_merge {X R' : List Block} {q q' : ℕ} (hX : ∀ c ∈ X, c.alloc = false) (p t : ℕ) :
    Used (P ++ [mergedBlock q q'] ++ R') p t ↔ Used (P ++ X ++ R') p t := by
  have h1 : ¬ Used X p t := fun ⟨c, hc, hca, _⟩ => by
    rw [hX c hc] at hca; exact absurd hca (by simp)
  have h2 : ¬ Used [mergedBlock q q'] p t := by
    rw [used_cons]; simp [mergedBlock]
  simp only [used_append, h1, h2]

/-- Merging a run leaves no two free neighbours. -/
theorem Run.coalesced {P' ps ns R' : List Block} {q q' : ℕ} (hr : Run P' ps b ns R')
    (hP : Coalesced (P' ++ ps)) (hR : Coalesced R) (hn : n :: R = ns ++ R') :
    Coalesced (P' ++ [mergedBlock q q'] ++ R') := by
  intro c hc hcf
  simp only [List.mem_append, List.mem_singleton] at hc
  rcases hc with (hc | rfl) | hc
  · exact hP c (by simp [hc]) hcf
  · rfl
  · rcases hr.behind with ⟨rfl, d, S, rfl, hda⟩ | ⟨d, rfl, -⟩
    · rcases List.mem_cons.mp hc with rfl | hc
      · rw [hcf] at hda; exact absurd hda (by simp)
      · exact hR c (by rw [(List.cons_eq_cons.mp hn).2]; exact hc) hcf
    · exact hR c (by rw [(List.cons_eq_cons.mp hn).2]; exact hc) hcf

end Release

/-! ## `mm_free` -/

section Free

variable {s : State} {L : List Block} {F : Fin 10 → List ℕ}

theorem Inv.headWord_of {m' : Mem} (hI : Inv s L F)
    (hw : load32 m' (s.arena.memStartBrk + 4) = load32 s.mem (s.arena.memStartBrk + 4)) :
    load32 m' (headerPtr s.blockHead) = word 8 true true := by
  have h : headerPtr s.blockHead = s.arena.memStartBrk + 4 := by
    rw [headerPtr, hI.head]; omega
  rw [h, hw, ← h, hI.headWord]

/-- The invariant for a state with other memory. -/
theorem Inv.of_rep {L' : List Block} {F' : Fin 10 → List ℕ} {m' : Mem} (hI : Inv s L F)
    (hr : Rep s.arena s.blockTail m' L' F') (hc : Coalesced L')
    (hw : load32 m' (s.arena.memStartBrk + 4) = load32 s.mem (s.arena.memStartBrk + 4)) :
    Inv { s with mem := m' } L' F' where
  toRep := hr
  head := hI.head
  brk := hI.brk
  headWord := hI.headWord_of hw
  coalesced := hc

/-- The invariant for a state with other memory and another tail. -/
theorem Inv.of_rep_tail {L' : List Block} {F' : Fin 10 → List ℕ} {m' : Mem} {hi' : ℕ}
    (hI : Inv s L F) (hr : Rep s.arena hi' m' L' F') (hc : Coalesced L')
    (hw : load32 m' (s.arena.memStartBrk + 4) = load32 s.mem (s.arena.memStartBrk + 4)) :
    Inv { s with mem := m', blockTail := hi', memBrk := hi' } L' F' where
  toRep := hr
  head := hI.head
  brk := rfl
  headWord := hI.headWord_of hw
  coalesced := hc

/-- Pointers and sizes of the free blocks. -/
def frees (L : List Block) : List (ℕ × ℕ) :=
  (L.filter fun b => !b.alloc).map fun b => (b.ptr, b.size)

theorem frees_append (P R : List Block) : frees (P ++ R) = frees P ++ frees R := by
  simp [frees]

theorem frees_cons (b : Block) (R : List Block) :
    frees (b :: R) = if b.alloc then frees R else (b.ptr, b.size) :: frees R := by
  cases h : b.alloc <;> simp [frees, h]

/-- The filing depends on pointers and sizes of the free blocks only. -/
theorem Filed.congr {L' : List Block} (h : Filed L F) (he : frees L' = frees L) : Filed L' F := by
  have key : ∀ (K : List Block) (i : Fin 10) (a : ℕ),
      (∃ b ∈ K, b.alloc = false ∧ b.ptr = a ∧ classOf b.size = i) ↔
        ∃ t, (a, t) ∈ frees K ∧ classOf t = i := by
    intro K i a
    simp only [frees, List.mem_map, List.mem_filter, Prod.mk.injEq, Bool.not_eq_true']
    constructor
    · rintro ⟨b, hb, hbf, rfl, rfl⟩
      exact ⟨b.size, ⟨b, ⟨hb, hbf⟩, rfl, rfl⟩, rfl⟩
    · rintro ⟨t, ⟨b, ⟨hb, hbf⟩, rfl, rfl⟩, rfl⟩
      exact ⟨b, hb, hbf, rfl, rfl⟩
  intro i a
  rw [h i a, key, key, he]

/-- **`mm_free`** of a live block: it leaves the blocks in use; every other payload is kept. -/
theorem mmFree_spec {p size : ℕ} (hI : Inv s L F) (hu : Used L p size) :
    ∃ m' L' F', mmFree s p = some { s with mem := m' } ∧ Inv { s with mem := m' } L' F' ∧
      (∀ q t, Used L' q t ↔ Used L q t ∧ q ≠ p) ∧
      ∀ q t, Used L q t → q ≠ p → SameAt s.mem m' q (t - 4) := by
  obtain ⟨b, hb, hba, h16, rfl, rfl⟩ := hu
  obtain ⟨P, n, R, rfl⟩ := hI.geo.blocks.exists_next hb h16
  obtain ⟨q, qa, hS, hB⟩ := hI.geo.blocks.split (List.cons_ne_nil _ _)
  obtain ⟨hbq, hbpa, -, h8, hBn⟩ := hB.uncons
  have hn : n ∈ P ++ b :: n :: R := by simp
  -- the heap with `b` marked free and the flag of its successor cleared
  have hg : Geo s.arena s.blockTail
      (P ++ { b with alloc := false } :: { n with prevAlloc := false } :: R) := by
    refine ⟨hS.append_blocks ?_, hI.geo.top⟩
    subst hbq hbpa
    exact .cons b.size false h16 h8 (hBn.setPrev false)
  have hsub : ∀ c ∈ P ++ R, c ∈ P ++ b :: n :: R := by
    intro c hc
    rw [mem_middle, mem_middle]
    exact Or.inr (Or.inr hc)
  have hcP : Coalesced P := fun c hc => hI.coalesced c (by simp [hc])
  have hcR : Coalesced R := fun c hc => hI.coalesced c (by simp [hc])
  obtain ⟨m₃, P', ps, ns, R', r, r', m', F', h1, h2, h3, h4, rfl, hrun, hnR, -, hrep, hfr⟩ :=
    hg.release_spec rfl (fun c hc => hI.hdrs c (hsub c hc)) (fun c hc => hI.ftrs c (hsub c hc))
      hI.lists (hI.filed.congr (by simp [frees_append, frees_cons, hba])) hcP
  -- the code does these steps
  have hbs := hI.geo.sizeOk hb
  have hbh := hI.hdrs b hb
  have hadd := hI.geo.addSz_eq hb
  have hal : getAlloc s.mem (headerPtr b.ptr) ≠ 0 := by
    rw [getAlloc_of_load hbs hbh, hba]; simp
  have hwr : syncFooter (setAlloc s.mem (headerPtr b.ptr) 0) b.ptr =
      store32 (store32 s.mem (headerPtr b.ptr) (word b.size b.prevAlloc false))
        (b.ptr + b.size - 8) (word b.size b.prevAlloc false) := by
    have e1 : setAlloc s.mem (headerPtr b.ptr) 0 =
        store32 s.mem (headerPtr b.ptr) (word b.size b.prevAlloc false) := setAlloc_eq hbs hbh false
    rw [e1]
    exact @syncFooter_eq _ { b with alloc := false } hbs hadd (load32_store32_same (word_lt hbs _ _))
  have hnext : nextBlock m₃ b.ptr = n.ptr := by
    rw [nextBlock, getSize_of_load hbs h2, hadd]
    exact hBn.head_eq.1.symm
  have hclr : setPrevAlloc m₃ (headerPtr n.ptr) 0 =
      store32 m₃ (headerPtr n.ptr) (word n.size false n.alloc) :=
    setPrevAlloc_eq (hI.geo.sizeOk hn) (h3.trans (hI.hdrs n hn)) false
  have hp : b.ptr ≠ null := ne_of_gt (by have := hI.geo.ptr_pos hb; unfold null; omega)
  have hrun' : mmFree s b.ptr = some { s with mem := m' } := by
    simp only [mmFree, if_neg hp, if_neg hal, hwr]
    erw [h1]
    simp only [Option.bind_eq_bind, Option.bind_some, hnext, hclr]
    erw [h4]
    rfl
  -- what is in use
  have hused : ∀ p t,
      Used (P' ++ ps ++ { b with alloc := false } :: { n with prevAlloc := false } :: R) p t ↔
        Used (P' ++ ps ++ b :: n :: R) p t ∧ p ≠ b.ptr := by
    intro p t
    rw [used_append, used_cons_free rfl, used_cons_setPrev]
    exact (hI.geo.used_rest hba h16 p t).1.symm
  have hmerge : ∀ p t, Used (P' ++ [mergedBlock r r'] ++ R') p t ↔
      Used (P' ++ ps ++ b :: n :: R) p t ∧ p ≠ b.ptr := by
    intro p t
    rw [used_merge hrun.all_free, ← hused]
    rw [show P' ++ (ps ++ { b with alloc := false } :: ns) ++ R' = P' ++ ps ++
      { b with alloc := false } :: (ns ++ R') by simp, ← hnR]
  refine ⟨m', _, F', hrun', ?_, hmerge, fun p t hu hne => ?_⟩
  · exact hI.of_rep hrep (hrun.coalesced hcP hcR hnR) (hg.headWord hfr)
  · exact hg.keeps hfr p t ((hused p t).mpr ⟨hu, hne⟩)

end Free

/-! ## `extend_heap` -/

section Extend

variable {s : State} {L P : List Block} {F : Fin 10 → List ℕ} {size : ℕ} {ta : Bool}

/-- `mem_sbrk(incr)` refuses `incr` as negative, or its sum `mem_brk + incr` does not wrap. -/
def SumFits (s : State) (incr : ℕ) : Prop := 2 ^ 31 ≤ incr ∨ s.brkSum incr = s.memBrk + incr

instance (s : State) (incr : ℕ) : Decidable (SumFits s incr) := inferInstanceAs (Decidable (_ ∨ _))

theorem brkSum_of_exact (h : s.arena.exactBrk = true) (incr : ℕ) : s.brkSum incr = s.memBrk + incr := by
  rw [State.brkSum, if_pos h]

theorem brkSum_of_lt (h : s.memBrk + size < 2 ^ 32) : s.brkSum size = s.memBrk + size := by
  unfold State.brkSum
  split_ifs
  · rfl
  · exact Nat.mod_eq_of_lt h

/-- `mem_sbrk` when there is room. -/
theorem memSbrk_of_room (hroom : s.memBrk + size ≤ s.memMaxAddr) (hlt : s.memBrk + size < 2 ^ 32) :
    memSbrk s size = (s.memBrk, { s with memBrk := s.memBrk + size }) := by
  have hsum : s.brkSum (size : ℤ).toNat = s.memBrk + size := brkSum_of_lt hlt
  unfold memSbrk
  rw [hsum, if_neg (by omega)]

/-- What `mem_sbrk` does with a `size_t` argument. -/
theorem memSbrk_cases (s : State) (hfits : SumFits s size) (h : size < 2 ^ 32) :
    (memSbrk s (toInt32 size) = (sbrkFail, s) ∧
        (2 ^ 31 ≤ size ∨ s.memMaxAddr < s.memBrk + size)) ∨
      (s.memBrk + size ≤ s.memMaxAddr ∧
        memSbrk s (toInt32 size) = (s.memBrk, { s with memBrk := s.memBrk + size })) := by
  unfold memSbrk toInt32
  by_cases h31 : size < 2 ^ 31
  · have hsum : s.brkSum (size : ℤ).toNat = s.memBrk + size := hfits.resolve_left (not_le.mpr h31)
    rw [if_pos h31, hsum]
    by_cases hc : s.memMaxAddr < s.memBrk + size
    · rw [if_pos (Or.inr hc)]
      exact Or.inl ⟨rfl, Or.inr hc⟩
    · rw [if_neg (by omega)]
      exact Or.inr ⟨by omega, rfl⟩
  · rw [if_neg h31]
    left
    rw [if_pos (Or.inl (by omega))]
    exact ⟨rfl, by omega⟩

/-- Where the block that `extend_heap` returns starts: at the old tail, or at the free block in front
of it. -/
def ExtendsFrom (ps : List Block) (tail : ℕ) (ta : Bool) (q : ℕ) : Prop :=
  (ps = [] ∧ ta = true ∧ q = tail) ∨
    ∃ p, ps = [p] ∧ p.alloc = false ∧ p.prevAlloc = true ∧ ta = false ∧ q = p.ptr ∧
      p.ptr + p.size = tail

/-- **`extend_heap`** fails for want of room and changes nothing, or the heap grows by `max size 16` bytes, which with
a free block in front of them are one free block at its end. -/
theorem extendHeap_spec (hI : Inv s (P ++ [⟨s.blockTail, 0, ta, true⟩]) F) (h8 : size % 8 = 0)
    (h32 : size < 2 ^ 32) (hfits : SumFits s (max size 16)) :
    (extendHeap s size = some (null, s) ∧
        (2 ^ 31 ≤ size ∨ s.memMaxAddr < s.blockTail + max size 16)) ∨
      ∃ P' ps q m' F', P = P' ++ ps ∧ ExtendsFrom ps s.blockTail ta q ∧ q ≠ null ∧
        extendHeap s size = some (q, { s with
          mem := m', blockTail := s.blockTail + max size 16, memBrk := s.blockTail + max size 16 }) ∧
        Inv { s with
          mem := m', blockTail := s.blockTail + max size 16, memBrk := s.blockTail + max size 16 }
          (P' ++ [mergedBlock q (s.blockTail + max size 16)] ++
            [⟨s.blockTail + max size 16, 0, false, true⟩]) F' ∧
        Keeps (P ++ [⟨s.blockTail, 0, ta, true⟩]) s.mem m' := by
  set t : Block := ⟨s.blockTail, 0, ta, true⟩ with ht
  have hal : align size = size := by rw [align_eq (by omega)]; omega
  set sz := max size 16 with hsz
  have hsz8 : sz % 8 = 0 := by omega
  rcases memSbrk_cases s hfits (by omega) with ⟨hfail, hwhy⟩ | ⟨hroom, hok⟩
  · left
    refine ⟨?_, by rw [hI.brk] at hwhy; omega⟩
    simp only [extendHeap, hal, minBlockSize, ← hsz, hfail, if_pos]
  · right
    rw [hI.brk] at hroom hok
    -- the tail block becomes a free block, a new tail follows it
    obtain ⟨q, qa, hS, hB⟩ := hI.geo.blocks.split (List.cons_ne_nil _ _)
    obtain ⟨hq, hqa⟩ := hB.head_eq
    have hg : Geo s.arena (s.blockTail + sz)
        (P ++ ⟨s.blockTail, sz, ta, false⟩ :: ⟨s.blockTail + sz, 0, false, true⟩ :: []) := by
      refine ⟨hS.append_blocks ?_, hroom⟩
      rw [← hq, ← hqa]
      exact .cons sz false (by omega) hsz8 (.tail false)
    have hsub : ∀ c ∈ P ++ [], c ∈ P ++ [t] := fun c hc => by simp at hc; simp [hc]
    have hcP : Coalesced P := fun c hc => hI.coalesced c (by simp [hc])
    obtain ⟨m₃, P', ps, ns, R', r, r', m', F', h1, -, -, h4, rfl, hrun, hnR, hX, hrep, hfr⟩ :=
      hg.release_spec rfl (fun c hc => hI.hdrs c (hsub c hc)) (fun c hc => hI.ftrs c (hsub c hc))
        hI.lists (hI.filed.congr (by simp [frees_append, frees_cons, ht])) hcP
    -- the new tail is allocated, so nothing is merged behind
    obtain ⟨rfl, rfl⟩ : ns = [] ∧ R' = [⟨s.blockTail + sz, 0, false, true⟩] := by
      rcases hrun.behind with ⟨rfl, -⟩ | ⟨d, rfl, hd, -⟩
      · exact ⟨rfl, hnR.symm⟩
      · rw [← (List.cons_eq_cons.mp hnR).1] at hd
        exact absurd hd (by simp)
    have hends : ExtendsFrom ps s.blockTail ta r ∧ r' = s.blockTail + sz := by
      rcases hrun.before with ⟨rfl, hta⟩ | ⟨p, rfl, hpf, hpp⟩
      · cases hX with
        | cons _ _ _ _ hs => cases hs; exact ⟨Or.inl ⟨rfl, hta, rfl⟩, rfl⟩
      · generalize hb : (⟨s.blockTail, sz, ta, false⟩ : Block) = b at hX
        cases hX with
        | cons size alloc _ _ hs =>
          cases hs with
          | cons size' alloc' _ _ hs' =>
            cases hs'
            simp only [Block.mk.injEq] at hb
            obtain ⟨e1, e2, e3, -⟩ := hb
            exact ⟨Or.inr ⟨_, rfl, hpf, rfl, e3.trans hpf, rfl, e1.symm⟩, by rw [e1, e2]⟩
    obtain ⟨hends, rfl⟩ := hends
    -- the code does these steps
    have hpa : getPrevAlloc s.mem (headerPtr s.blockTail) = ta.toNat :=
      hI.getPrevAlloc_eq (b := t) (by simp)
    have hbm := hg.sizeOk (b := ⟨s.blockTail, sz, ta, false⟩) (by simp)
    have hadd : addSz s.blockTail sz = s.blockTail + sz := hg.addSz_eq (b := ⟨s.blockTail, sz, ta, false⟩) (by simp)
    have hwr := setMeta_syncFooter (m := s.mem) (b := ⟨s.blockTail, sz, ta, false⟩) hbm hadd rfl
    have htl : setMeta m₃ (headerPtr (s.blockTail + sz)) 0 0 1 =
        store32 m₃ (headerPtr (s.blockTail + sz)) (word 0 false true) :=
      setMeta_eq (⟨rfl, by omega⟩ : SizeOk 0) false true
    have hrun' : extendHeap s size = some (r, { s with
        mem := m', blockTail := s.blockTail + sz, memBrk := s.blockTail + sz }) := by
      have hne : s.blockTail ≠ sbrkFail := by
        unfold sbrkFail
        have := hg.top; have := s.arena.start_top
        omega
      simp only [extendHeap, hal, minBlockSize, ← hsz, hok, if_neg hne, hpa, hadd]
      erw [hwr, h1]
      simp only [Option.bind_eq_bind, Option.bind_some, htl]
      erw [h4]
      rfl
    have hnull : r ≠ null := ne_of_gt (by
      have := hrep.geo.ptr_pos (b := mergedBlock r (s.blockTail + sz)) (by simp)
      simp only [mergedBlock] at this
      unfold null; omega)
    refine ⟨P', ps, r, m', F', rfl, hends, hnull, hrun', ?_, ?_⟩
    · exact hI.of_rep_tail hrep (hrun.coalesced hcP (fun c hc => by simp at hc) hnR)
        (hg.headWord hfr)
    · refine (hg.keeps hfr).mono fun p u hu => ?_
      simp only [used_append, used_cons, used_nil, or_false] at hu ⊢
      simp [ht] at hu
      exact Or.inl hu

end Extend

end Csapp.Malloc
