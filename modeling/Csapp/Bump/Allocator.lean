import Csapp.Lib.Align

/-!
# Bump.Allocator — the bump allocator

`exercises/11_bump_allocator.c`.  A `uintptr_t` and a `size_t` are words of 64 bits; a pointer to an allocator
is `none` where it is null, and what a function leaves behind it is returned with the result.
`bumpAlloc_cases` says all that an allocation can do.
-/

namespace Csapp.Bump

open Csapp.Lib

abbrev Word := BitVec 64

abbrev nullptr : Word := 0

/-- `SIZE_MAX`. -/
abbrev sizeMax : Word := BitVec.allOnes 64

inductive BumpStatus
  | ok
  | errInvalidArg
  deriving DecidableEq

structure BumpAllocator where
  buffer : Word
  capacity : Word
  offset : Word
  deriving DecidableEq

abbrev BumpMarker := Word

def isPowerOfTwo (n : Word) : Bool := n != 0 && (n &&& (n - 1)) == 0

def bumpAlignForward (addr align : Word) : Word := (addr + (align - 1)) &&& ~~~(align - 1)

def bumpInit (alloc : Option BumpAllocator) (memoryBlock capacityBytes : Word) :
    BumpStatus × Option BumpAllocator :=
  match alloc with
  | none => (.errInvalidArg, none)
  | some a =>
    if memoryBlock = nullptr ∨ capacityBytes = 0 then (.errInvalidArg, some a)
    else (.ok, some ⟨memoryBlock, capacityBytes, 0⟩)

/-- The alignment that a call asks for: `maxAlign` is `alignof(max_align_t)`. -/
def requested (maxAlign align : Word) : Word := if align = 0 then maxAlign else align

def bumpAlloc (maxAlign : Word) (alloc : Option BumpAllocator) (size align : Word) :
    Word × Option BumpAllocator :=
  match alloc with
  | none => (nullptr, none)
  | some a =>
    if a.buffer = nullptr then (nullptr, some a)
    else if isPowerOfTwo (requested maxAlign align) = false then (nullptr, some a)
    else
      let currentAddr := a.buffer + a.offset
      let alignedAddr := bumpAlignForward currentAddr (requested maxAlign align)
      let padding := alignedAddr - currentAddr
      if size = 0 then
        if a.offset + padding > a.capacity then (nullptr, some a) else (alignedAddr, some a)
      else if size > sizeMax - padding ∨ padding + size > sizeMax - a.offset then (nullptr, some a)
      else if a.offset + padding + size > a.capacity then (nullptr, some a)
      else (alignedAddr, some { a with offset := a.offset + (padding + size) })

def bumpReset (alloc : Option BumpAllocator) : Option BumpAllocator :=
  match alloc with
  | none => none
  | some a => some { a with offset := 0 }

def bumpSave (alloc : Option BumpAllocator) : BumpMarker :=
  match alloc with
  | none => 0
  | some a => a.offset

def bumpRestore (alloc : Option BumpAllocator) (marker : BumpMarker) : Bool × Option BumpAllocator :=
  match alloc with
  | none => (false, none)
  | some a => if marker > a.offset then (false, some a) else (true, some { a with offset := marker })

/-! ## Alignment -/

theorem isPowerOfTwo_iff {n : Word} : isPowerOfTwo n = true ↔ ∃ k, n.toNat = 2 ^ k := by
  rw [isPowerOfTwo, Bool.and_eq_true, bne_iff_ne, beq_iff_eq]
  by_cases hn : n = 0
  · subst hn
    have hpos := fun k => Nat.two_pow_pos k
    simp only [ne_eq, not_true_eq_false, false_and, false_iff, not_exists]
    intro k hk
    exact absurd hk (hpos k).ne
  · have hle : (1 : Word) ≤ n := by
      rw [BitVec.le_def]
      exact Nat.one_le_iff_ne_zero.mpr fun h => hn (BitVec.eq_of_toNat_eq h)
    have hand : n &&& (n - 1) = 0 ↔ n.toNat &&& (n.toNat - 1) = 0 := by
      rw [← BitVec.toNat_inj, BitVec.toNat_and, BitVec.toNat_sub_of_le hle]
      rfl
    have hne : n.toNat ≠ 0 := fun h => hn (BitVec.eq_of_toNat_eq h)
    rw [hand, Nat.and_sub_one_eq_zero_iff_isPowerOfTwo hne]
    exact ⟨fun h => h.2, fun h => ⟨hn, h⟩⟩

/-- The address an allocation starts at, and the padding in front of it, where the alignment is a power of
two: an address that is rounded up to the end of the address space is 0. -/
theorem bumpAlignForward_spec (addr align : Word) {k : ℕ} (hk : align.toNat = 2 ^ k) :
    (bumpAlignForward addr align).toNat = alignUp align.toNat addr.toNat % 2 ^ 64 ∧
      (bumpAlignForward addr align - addr).toNat = alignUp align.toNat addr.toNat - addr.toNat ∧
      alignUp align.toNat addr.toNat ≤ 2 ^ 64 := by
  have hlt : align.toNat < 2 ^ 64 := align.isLt
  have hk64 : k < 64 := (Nat.pow_lt_pow_iff_right (Nat.lt_succ_self 1)).mp (hk ▸ hlt)
  have hpos : 0 < align.toNat := hk ▸ Nat.two_pow_pos k
  have hhalf : align.toNat ≤ 2 ^ 63 := hk ▸ Nat.pow_le_pow_right Nat.two_pos (Nat.le_of_lt_succ hk64)
  have hdvd : align.toNat ∣ 2 ^ 64 := hk ▸ Nat.pow_dvd_pow 2 hk64.le
  have haddr := addr.isLt
  have htop : alignUp align.toNat addr.toNat ≤ 2 ^ 64 := alignUp_le hpos haddr.le hdvd
  have hge := le_alignUp hpos addr.toNat
  have hup := alignUp_lt hpos addr.toNat
  have hmask : (bumpAlignForward addr align).toNat = alignUp align.toNat addr.toNat % 2 ^ 64 :=
    toNat_alignMask addr align hk
  refine ⟨hmask, ?_, htop⟩
  rw [BitVec.toNat_sub, hmask]
  omega

/-! ## Allocation -/

/-- The allocator `a` gives `size` bytes at `p`, aligned to `align`, and is `a'` afterwards. -/
structure Grants (a : BumpAllocator) (size align p : Word) (a' : BumpAllocator) : Prop where
  wanted : size ≠ 0
  nonzero : p ≠ nullptr
  aligned : align.toNat ∣ p.toNat
  above : a.buffer.toNat + a.offset.toNat ≤ p.toNat
  next : a'.buffer.toNat + a'.offset.toNat = p.toNat + size.toNat
  inside : a'.offset.toNat ≤ a'.capacity.toNat
  buffer : a'.buffer = a.buffer
  capacity : a'.capacity = a.capacity

/-- The guard against overflow. -/
theorem not_gt_sizeMax_sub {x y : Word} : ¬ x > sizeMax - y ↔ x.toNat + y.toNat < 2 ^ 64 := by
  have hx := x.isLt
  have hy := y.isLt
  rw [gt_iff_lt, BitVec.lt_def, BitVec.toNat_sub, BitVec.toNat_allOnes]
  omega

/-- None of the sums wraps where the guards let an allocation through, so that it ends inside the arena. -/
theorem grants_of_fits {a : BumpAllocator} (hoff : a.offset.toNat ≤ a.capacity.toNat)
    (hfit : a.buffer.toNat + a.capacity.toNat ≤ 2 ^ 64) (hbuf : a.buffer ≠ nullptr) {size align : Word} {k : ℕ}
    (hk : align.toNat = 2 ^ k) (hsize : size ≠ 0) {p padding : Word}
    (hp : p = bumpAlignForward (a.buffer + a.offset) align) (hpad : padding = p - (a.buffer + a.offset))
    (hover : ¬ (size > sizeMax - padding ∨ padding + size > sizeMax - a.offset))
    (hcap : ¬ a.offset + padding + size > a.capacity) :
    Grants a size align p { a with offset := a.offset + (padding + size) } := by
  obtain ⟨haligned, hpadding, htop⟩ := bumpAlignForward_spec (a.buffer + a.offset) align hk
  have hdvd := dvd_alignUp align.toNat (a.buffer + a.offset).toNat
  have hge := le_alignUp (hk ▸ Nat.two_pow_pos k) (a.buffer + a.offset).toNat
  rw [← hp] at haligned hpadding
  rw [← hpad] at hpadding
  obtain ⟨hover, hover'⟩ := not_or.mp hover
  rw [not_gt_sizeMax_sub] at hover hover'
  rw [gt_iff_lt, BitVec.lt_def] at hcap
  have hpos : size.toNat ≠ 0 := fun h => hsize (BitVec.eq_of_toNat_eq h)
  have hbuf : a.buffer.toNat ≠ 0 := fun h => hbuf (BitVec.eq_of_toNat_eq h)
  simp only [BitVec.toNat_add] at haligned hpadding htop hdvd hge hover hover' hcap
  rw [hpadding] at hover hover' hcap
  generalize alignUp _ _ = up at *
  have hend : a.offset.toNat + (up - (a.buffer.toNat + a.offset.toNat)) + size.toNat ≤ a.capacity.toNat ∧
      a.buffer.toNat + a.offset.toNat ≤ up := by omega
  have hup : up < 2 ^ 64 := by omega
  rw [Nat.mod_eq_of_lt hup] at haligned
  constructor
  · exact hsize
  · intro hnull
    rw [hnull] at haligned
    have : up = 0 := haligned.symm
    omega
  · rwa [haligned]
  · rw [haligned]
    exact hend.2
  · simp only [BitVec.toNat_add, haligned, hpadding]
    omega
  · simp only [BitVec.toNat_add, hpadding]
    omega
  · rfl
  · rfl

/-- **All that an allocation does**: it leaves the allocator alone and returns null, or an address where no
bytes are asked for; or it grants what was asked for. -/
theorem bumpAlloc_cases {a : BumpAllocator} (hoff : a.offset.toNat ≤ a.capacity.toNat)
    (hfit : a.buffer.toNat + a.capacity.toNat ≤ 2 ^ 64) (maxAlign size align : Word) :
    (∃ p, bumpAlloc maxAlign (some a) size align = (p, some a) ∧ (p = nullptr ∨ size = 0)) ∨
      ∃ p a', bumpAlloc maxAlign (some a) size align = (p, some a') ∧
        Grants a size (requested maxAlign align) p a' := by
  have hfail : ∀ {r : Word × Option BumpAllocator}, r = (nullptr, some a) →
      (∃ p, r = (p, some a) ∧ (p = nullptr ∨ size = 0)) := fun hr => ⟨_, hr, .inl rfl⟩
  unfold bumpAlloc
  simp only
  by_cases hbuf : a.buffer = nullptr
  · exact .inl (hfail (if_pos hbuf))
  rw [if_neg hbuf]
  by_cases hpow : isPowerOfTwo (requested maxAlign align) = false
  · exact .inl (hfail (if_pos hpow))
  rw [if_neg hpow]
  obtain ⟨k, hk⟩ := isPowerOfTwo_iff.mp (Bool.eq_true_of_not_eq_false hpow)
  by_cases hsize : size = 0
  · rw [if_pos hsize]
    split
    · exact .inl (hfail rfl)
    · exact .inl ⟨_, rfl, .inr hsize⟩
  rw [if_neg hsize]
  split
  · exact .inl (hfail rfl)
  next hover =>
  split
  · exact .inl (hfail rfl)
  next hcap =>
  exact .inr ⟨_, _, rfl, grants_of_fits hoff hfit hbuf hk hsize rfl rfl hover hcap⟩

end Csapp.Bump
