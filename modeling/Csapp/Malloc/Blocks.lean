import Csapp.Malloc.Mm
import Mathlib.Data.List.Basic
import Mathlib.Data.List.Pairwise

/-!
# Malloc.Blocks — the heap as a list of blocks

The abstract heap: the blocks between `block_head` and the break, each with its payload pointer,
its size and its two flag bits, the zero-sized block at `block_tail` last.  `Blocks hi p pa L` says
that `L` tiles the addresses from `p` to `hi`.  The first section reads and writes one header word;
the rest is geometry: blocks of a tiling do not overlap, and the words the allocator keeps in them
(headers, footers, list links) and the client bytes are pairwise apart.
-/

namespace Csapp.Malloc

open Csapp.Lib

/-! ## Header words -/

/-- The header word with the given size and flags. -/
def word (size : ℕ) (prevAlloc alloc : Bool) : ℕ := size + 2 * prevAlloc.toNat + alloc.toNat

section Words

variable {m : Mem} {p q size size' : ℕ} {pa pa' a a' : Bool}

/-- A size a header can hold. -/
def SizeOk (size : ℕ) : Prop := size % 8 = 0 ∧ size < 2 ^ 32

theorem SizeOk.exists_eq (h : SizeOk size) : ∃ c, size = 8 * c ∧ 8 * c < 2 ^ 32 :=
  ⟨size / 8, by have := h.1; omega, by have := h.1; have := h.2; omega⟩

theorem word_lt (h : SizeOk size) (pa a : Bool) : word size pa a < 2 ^ 32 := by
  obtain ⟨h1, h2⟩ := h
  have := pa.toNat_le; have := a.toNat_le
  unfold word; omega

theorem flags_lt (pa a : Bool) : 2 * pa.toNat + a.toNat < 8 := by
  have := pa.toNat_le; have := a.toNat_le; omega

theorem getSize_of_load (h : SizeOk size) (hl : load32 m p = word size pa a) :
    getSize m p = size := by
  obtain ⟨c, rfl, hc⟩ := h.exists_eq
  have := and_flags (c := c) (z := 0) hc (flags_lt pa a) (by omega)
  rw [getSize, hl, word, add_assoc]
  simpa using this

theorem getAlloc_of_load (h : SizeOk size) (hl : load32 m p = word size pa a) :
    getAlloc m p = a.toNat := by
  obtain ⟨c, rfl, -⟩ := h.exists_eq
  rw [getAlloc, hl, word, add_assoc, and_low (flags_lt pa a) (by omega)]
  cases pa <;> cases a <;> rfl

theorem getPrevAlloc_of_load (h : SizeOk size) (hl : load32 m p = word size pa a) :
    getPrevAlloc m p = pa.toNat := by
  obtain ⟨c, rfl, -⟩ := h.exists_eq
  have h2 : (8 * c + (2 * pa.toNat + a.toNat)) >>> 1 = 8 * (c / 2) + (4 * (c % 2) + pa.toNat) := by
    have := pa.toNat_le; have := a.toNat_le
    rw [Nat.shiftRight_eq_div_pow]; omega
  rw [getPrevAlloc, hl, word, add_assoc, h2,
    and_low (by have := pa.toNat_le; omega) (by omega), Nat.and_one_is_mod]
  cases pa <;> simp [Nat.add_mod, Nat.mul_mod]

theorem setMeta_eq (h : SizeOk size) (pa a : Bool) :
    setMeta m p size pa.toNat a.toNat = store32 m p (word size pa a) := by
  obtain ⟨c, rfl, -⟩ := h.exists_eq
  have h2 : pa.toNat <<< 1 ||| a.toNat = 2 * pa.toNat + a.toNat := by cases pa <;> cases a <;> rfl
  rw [setMeta, Nat.or_assoc, h2, show 8 * c = 2 ^ 3 * c from rfl, or_low (flags_lt pa a), word,
    add_assoc]

theorem setSize_eq (h : SizeOk size) (h' : SizeOk size') (hl : load32 m p = word size pa a) :
    setSize m p size' = store32 m p (word size' pa a) := by
  obtain ⟨c, rfl, -⟩ := h.exists_eq
  obtain ⟨c', rfl, -⟩ := h'.exists_eq
  rw [setSize, hl, word, add_assoc, and_low (flags_lt pa a) (by omega),
    show (2 * pa.toNat + a.toNat) &&& 7 = 2 * pa.toNat + a.toNat by cases pa <;> cases a <;> rfl,
    Nat.or_comm, show 8 * c' = 2 ^ 3 * c' from rfl, or_low (flags_lt pa a), word, add_assoc]

theorem setPrevAlloc_eq (h : SizeOk size) (hl : load32 m p = word size pa a) (pa' : Bool) :
    setPrevAlloc m p pa'.toNat = store32 m p (word size pa' a) := by
  obtain ⟨c, rfl, hc⟩ := h.exists_eq
  have h1 := and_flags (c := c) (z := 5) hc (flags_lt pa a) (by omega)
  have h2 : ((2 * pa.toNat + a.toNat) &&& 5) ||| (pa'.toNat <<< 1) = 2 * pa'.toNat + a.toNat := by
    cases pa <;> cases a <;> cases pa' <;> rfl
  have h3 : (2 * pa.toNat + a.toNat) &&& 5 < 2 ^ 3 := lt_of_le_of_lt Nat.and_le_left (flags_lt pa a)
  rw [setPrevAlloc, hl, word, add_assoc, show 0xFFFFFFFD = 0xFFFFFFF8 + 5 from rfl, h1,
    show 8 * c = 2 ^ 3 * c from rfl, ← or_low h3, Nat.or_assoc, h2, or_low (flags_lt pa' a), word,
    add_assoc]

theorem setAlloc_eq (h : SizeOk size) (hl : load32 m p = word size pa a) (a' : Bool) :
    setAlloc m p a'.toNat = store32 m p (word size pa a') := by
  obtain ⟨c, rfl, hc⟩ := h.exists_eq
  have h1 := and_flags (c := c) (z := 6) hc (flags_lt pa a) (by omega)
  have h2 : ((2 * pa.toNat + a.toNat) &&& 6) ||| a'.toNat = 2 * pa.toNat + a'.toNat := by
    cases pa <;> cases a <;> cases a' <;> rfl
  have h3 : (2 * pa.toNat + a.toNat) &&& 6 < 2 ^ 3 := lt_of_le_of_lt Nat.and_le_left (flags_lt pa a)
  rw [setAlloc, hl, word, add_assoc, show 0xFFFFFFFE = 0xFFFFFFF8 + 6 from rfl, h1,
    show 8 * c = 2 ^ 3 * c from rfl, ← or_low h3, Nat.or_assoc, h2, or_low (flags_lt pa a'), word,
    add_assoc]

/-- `align` rounds the wrapped sum down to a multiple of 8. -/
theorem align_spec (size : ℕ) : align size = addSz size 7 / 8 * 8 := by
  have hlt : addSz size 7 < 2 ^ 32 := Nat.mod_lt _ (by omega)
  have := and_flags (c := addSz size 7 / 8) (y := addSz size 7 % 8) (z := 0) (by omega) (by omega)
    (by omega)
  rw [show 8 * (addSz size 7 / 8) + addSz size 7 % 8 = addSz size 7 by omega] at this
  rw [align, show (0xFFFFFFF8 : ℕ) = 0xFFFFFFF8 + 0 from rfl, this]
  simp [Nat.mul_comm]

/-- `align` rounds up to a multiple of 8 when the sum does not wrap. -/
theorem align_eq (h : size + 7 < 2 ^ 32) : align size = (size + 7) / 8 * 8 := by
  rw [align_spec, addSz, Nat.mod_eq_of_lt h]

/-- Block sizes for requests. -/
theorem allocSizeOf_spec (n : ℕ) :
    16 ≤ allocSizeOf n ∧ allocSizeOf n % 8 = 0 ∧ allocSizeOf n < 2 ^ 32 := by
  have hlt : addSz (addSz n 4) 7 < 2 ^ 32 := Nat.mod_lt _ (by omega)
  unfold allocSizeOf minBlockSize
  rw [align_spec]
  omega

/-- A request that does not wrap gets its bytes and a header. -/
theorem le_allocSizeOf {n : ℕ} (h : n + 11 < 2 ^ 32) : n + 4 ≤ allocSizeOf n := by
  have h4 : addSz n 4 = n + 4 := Nat.mod_eq_of_lt (by omega)
  unfold allocSizeOf
  rw [h4, align_eq (by omega)]
  omega

/-- The others wrap to the smallest block. -/
theorem allocSizeOf_wrap {n : ℕ} (h : 2 ^ 32 ≤ n + 11) (hn : n < 2 ^ 32) : allocSizeOf n = 16 := by
  unfold allocSizeOf minBlockSize
  rw [align_spec]
  unfold addSz
  omega

end Words

/-! ## Tilings -/

/-- A block: payload pointer, size with its header, and the two flag bits of its header. -/
structure Block where
  ptr : ℕ
  size : ℕ
  prevAlloc : Bool
  alloc : Bool
  deriving DecidableEq

/-- The header word of a block. -/
def Block.word (b : Block) : ℕ := Malloc.word b.size b.prevAlloc b.alloc

/-- `L` tiles the addresses from `p` to `hi`: every block starts where the one before it ends and
its `prev_alloc` flag is the `alloc` flag of that one (`pa` for the first); all have at least
`MIN_BLOCK_SIZE` bytes but the last, which is the block at `block_tail = hi`. -/
inductive Blocks (hi : ℕ) : ℕ → Bool → List Block → Prop
  | tail (pa : Bool) : Blocks hi hi pa [⟨hi, 0, pa, true⟩]
  | cons {p : ℕ} {pa : Bool} {L : List Block} (size : ℕ) (alloc : Bool) : 16 ≤ size →
      size % 8 = 0 → Blocks hi (p + size) alloc L → Blocks hi p pa (⟨p, size, pa, alloc⟩ :: L)

/-- A run of proper blocks from `p` to `q`; `qa` is the `alloc` flag of the last. -/
inductive Seg : ℕ → Bool → List Block → ℕ → Bool → Prop
  | nil (p : ℕ) (pa : Bool) : Seg p pa [] p pa
  | cons {p q : ℕ} {pa qa : Bool} {L : List Block} (size : ℕ) (alloc : Bool) : 16 ≤ size →
      size % 8 = 0 → Seg (p + size) alloc L q qa → Seg p pa (⟨p, size, pa, alloc⟩ :: L) q qa

/-- Where a member of a tiling lies. -/
structure Block.In (b : Block) (p hi : ℕ) : Prop where
  lo : p ≤ b.ptr
  top : b.ptr + b.size ≤ hi
  aligned : b.ptr % 8 = p % 8
  size_mod : b.size % 8 = 0
  kind : 16 ≤ b.size ∨ (b.size = 0 ∧ b.alloc = true ∧ b.ptr = hi)

section Tilings

variable {hi p q : ℕ} {pa qa : Bool} {L L₁ L₂ : List Block} {b c n : Block}

theorem Seg.append (h₁ : Seg p pa L₁ q qa) {r : ℕ} {ra : Bool} (h₂ : Seg q qa L₂ r ra) :
    Seg p pa (L₁ ++ L₂) r ra := by
  induction h₁ with
  | nil => exact h₂
  | cons size alloc h16 h8 _ ih => exact .cons size alloc h16 h8 (ih h₂)

theorem Seg.append_blocks (h₁ : Seg p pa L₁ q qa) (h₂ : Blocks hi q qa L₂) :
    Blocks hi p pa (L₁ ++ L₂) := by
  induction h₁ with
  | nil => exact h₂
  | cons size alloc h16 h8 _ ih => exact .cons size alloc h16 h8 (ih h₂)

theorem Seg.split (h : Seg p pa (L₁ ++ L₂) q qa) :
    ∃ r ra, Seg p pa L₁ r ra ∧ Seg r ra L₂ q qa := by
  induction L₁ generalizing p pa with
  | nil => exact ⟨p, pa, .nil p pa, h⟩
  | cons b L ih =>
    cases h with
    | cons size alloc h16 h8 h' =>
      obtain ⟨r, ra, h1, h2⟩ := ih h'
      exact ⟨r, ra, .cons size alloc h16 h8 h1, h2⟩

/-- The last block of a run. -/
theorem Seg.last (h : Seg p pa (L ++ [b]) q qa) : b.alloc = qa ∧ b.ptr + b.size = q := by
  obtain ⟨r, ra, -, h'⟩ := h.split
  cases h' with
  | cons size alloc _ _ h'' => cases h''; exact ⟨rfl, rfl⟩

theorem Blocks.ne_nil (h : Blocks hi p pa L) : L ≠ [] := by
  cases h <;> simp

/-- Cut a tiling in front of any of its blocks. -/
theorem Blocks.split (h : Blocks hi p pa (L₁ ++ L₂)) (hne : L₂ ≠ []) :
    ∃ q qa, Seg p pa L₁ q qa ∧ Blocks hi q qa L₂ := by
  induction L₁ generalizing p pa with
  | nil => exact ⟨p, pa, .nil p pa, h⟩
  | cons b L ih =>
    generalize hL : b :: L ++ L₂ = K at h
    cases h with
    | tail =>
      exfalso
      simp at hL
      exact hne hL.2.2
    | cons size alloc h16 h8 h' =>
      obtain ⟨rfl, rfl⟩ := List.cons_eq_cons.mp hL
      obtain ⟨q, qa, h1, h2⟩ := ih h'
      exact ⟨q, qa, .cons size alloc h16 h8 h1, h2⟩

/-- The blocks around one block, and the block itself. -/
theorem mem_middle {c : Block} {P R : List Block} : c ∈ P ++ b :: R ↔ c = b ∨ c ∈ P ++ R :=
  List.perm_middle.mem_iff.trans List.mem_cons

/-- The first block of a tiling that is not its last. -/
theorem Blocks.uncons (h : Blocks hi p pa (b :: n :: L)) :
    b.ptr = p ∧ b.prevAlloc = pa ∧ 16 ≤ b.size ∧ b.size % 8 = 0 ∧
      Blocks hi (b.ptr + b.size) b.alloc (n :: L) := by
  cases h with
  | cons size alloc h16 h8 h' => exact ⟨rfl, rfl, h16, h8, h'⟩

theorem Blocks.head_eq (h : Blocks hi p pa (b :: L)) : b.ptr = p ∧ b.prevAlloc = pa := by
  cases h <;> exact ⟨rfl, rfl⟩

/-- Changing the `prev_alloc` flag of the first block. -/
theorem Blocks.setPrev (h : Blocks hi p pa (n :: L)) (pa' : Bool) :
    Blocks hi p pa' ({ n with prevAlloc := pa' } :: L) := by
  cases h with
  | tail => exact .tail pa'
  | cons size alloc h16 h8 h' => exact .cons size alloc h16 h8 h'

theorem Seg.le (h : Seg p pa L q qa) : p ≤ q := by
  induction h with
  | nil => exact le_rfl
  | cons size alloc h16 h8 _ ih => omega

theorem Blocks.le (h : Blocks hi p pa L) : p ≤ hi := by
  induction h with
  | tail => exact le_rfl
  | cons size alloc h16 h8 _ ih => omega

theorem Seg.aligned (h : Seg p pa L q qa) : q % 8 = p % 8 := by
  induction h with
  | nil => rfl
  | cons size alloc h16 h8 _ ih => omega

theorem Seg.mem_in (h : Seg p pa L q qa) (hb : b ∈ L) : b.In p q ∧ 16 ≤ b.size := by
  induction h with
  | nil => simp at hb
  | @cons p q pa qa L size alloc h16 h8 hs ih =>
    rcases List.mem_cons.mp hb with rfl | hb
    · exact ⟨⟨le_rfl, hs.le, rfl, h8, Or.inl h16⟩, h16⟩
    · obtain ⟨⟨h1, h2, h3, h4, h5⟩, h6⟩ := ih hb
      exact ⟨⟨by omega, h2, by omega, h4, Or.inl h6⟩, h6⟩

theorem Blocks.mem_in (h : Blocks hi p pa L) (hb : b ∈ L) : b.In p hi := by
  induction h with
  | tail pa =>
    rw [List.mem_singleton.mp hb]
    exact ⟨le_rfl, le_rfl, rfl, rfl, Or.inr ⟨rfl, rfl, rfl⟩⟩
  | @cons p pa L size alloc h16 h8 hs ih =>
    rcases List.mem_cons.mp hb with rfl | hb
    · exact ⟨le_rfl, hs.le, rfl, h8, Or.inl h16⟩
    · obtain ⟨h1, h2, h3, h4, h5⟩ := ih hb
      exact ⟨by omega, h2, by omega, h4, h5⟩

/-- Distinct blocks of a tiling do not overlap. -/
theorem Blocks.apart (h : Blocks hi p pa L) (hb : b ∈ L) (hc : c ∈ L) :
    b = c ∨ (b.ptr + b.size ≤ c.ptr ∧ 16 ≤ b.size) ∨ (c.ptr + c.size ≤ b.ptr ∧ 16 ≤ c.size) := by
  induction h with
  | tail pa => exact Or.inl ((List.mem_singleton.mp hb).trans (List.mem_singleton.mp hc).symm)
  | @cons p pa L size alloc h16 h8 hs ih =>
    rcases List.mem_cons.mp hb with rfl | hb <;> rcases List.mem_cons.mp hc with rfl | hc
    · exact Or.inl rfl
    · exact Or.inr (Or.inl ⟨(hs.mem_in hc).lo, h16⟩)
    · exact Or.inr (Or.inr ⟨(hs.mem_in hb).lo, h16⟩)
    · exact ih hb hc

/-- A block is determined by its pointer. -/
theorem Blocks.eq_of_ptr (h : Blocks hi p pa L) (hb : b ∈ L) (hc : c ∈ L) (e : b.ptr = c.ptr) :
    b = c := by
  rcases h.apart hb hc with h1 | h1 | h1
  · exact h1
  · omega
  · omega

/-- Free blocks are proper blocks. -/
theorem Blocks.free_size (h : Blocks hi p pa L) (hb : b ∈ L) (hf : b.alloc = false) :
    16 ≤ b.size := by
  rcases (h.mem_in hb).kind with h1 | ⟨-, h1, -⟩
  · exact h1
  · rw [hf] at h1; exact absurd h1 (by simp)

/-- The tail block ends every tiling. -/
theorem Blocks.exists_tail (h : Blocks hi p pa L) :
    ∃ mid ta, L = mid ++ [⟨hi, 0, ta, true⟩] ∧ Seg p pa mid hi ta := by
  induction h with
  | tail pa => exact ⟨[], pa, rfl, .nil _ _⟩
  | @cons p pa L size alloc h16 h8 hs ih =>
    obtain ⟨mid, ta, rfl, h1⟩ := ih
    exact ⟨⟨p, size, pa, alloc⟩ :: mid, ta, rfl, .cons size alloc h16 h8 h1⟩

/-- A tiling has at most one block for each 16 bytes, and the tail. -/
theorem Blocks.length_le (h : Blocks hi p pa L) : 16 * L.length ≤ hi - p + 16 := by
  induction h with
  | tail pa => simp
  | @cons p pa L size alloc h16 h8 hs ih =>
    have := hs.le
    simp only [List.length_cons]
    omega

end Tilings

/-! ## Bytes -/

/-- The bytes a client owns: the payloads of the allocated blocks. -/
def Client (L : List Block) (x : ℕ) : Prop :=
  ∃ b ∈ L, b.alloc = true ∧ b.ptr ≤ x ∧ x + 4 < b.ptr + b.size

/-- The bytes the allocator owns: headers and everything in a free block. -/
def Owned (L : List Block) (x : ℕ) : Prop :=
  ∃ b ∈ L, (b.ptr ≤ x + 4 ∧ x < b.ptr) ∨ (b.alloc = false ∧ b.ptr ≤ x ∧ x + 4 < b.ptr + b.size)

theorem Blocks.not_owned {hi p : ℕ} {pa : Bool} {L : List Block} (h : Blocks hi p pa L) {x : ℕ}
    (hx : Client L x) : ¬ Owned L x := by
  obtain ⟨b, hb, hba, h1, h2⟩ := hx
  rintro ⟨c, hc, h3⟩
  rcases h.apart hb hc with rfl | h4 | h4
  · rcases h3 with h3 | ⟨h3, -⟩
    · omega
    · rw [hba] at h3; exact absurd h3 (by simp)
  · rcases h3 with h3 | ⟨-, h3⟩ <;> omega
  · rcases h3 with h3 | ⟨-, h3⟩
    · omega
    · omega

end Csapp.Malloc
