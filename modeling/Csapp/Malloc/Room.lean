import Csapp.Malloc.Growth

/-!
# Malloc.Room — how much of the heap one call can use

`mm_malloc(n)` moves `mem_brk` by at most `allocSizeOf n`, and `mm_realloc` by at most twice as much: it may extend the
heap behind the block and then allocate elsewhere.  A call fails only if there is less room than that.
-/

namespace Csapp.Malloc

open Csapp.Lib

/-- From `s` to `s'` at most `cost` bytes of the heap are taken; the pointer `q` is `NULL` only if there are fewer. -/
structure Within (s s' : State) (q cost : ℕ) : Prop where
  brk : s'.memBrk ≤ s.memBrk + cost
  null : q = null → s.memMaxAddr < s.memBrk + cost

section Room

variable {s s' : State} {P R L : List Block} {F : Fin 10 → List ℕ} {b n : Block} {p q t size : ℕ}

theorem Within.mono {c d : ℕ} (h : Within s s' q c) (hcd : c ≤ d) : Within s s' q d where
  brk := h.brk.trans (Nat.add_le_add_left hcd _)
  null hq := (h.null hq).trans_le (Nat.add_le_add_left hcd _)

theorem extendHeap_room (hI : Inv s L F) (h8 : size % 8 = 0) (h32 : size < 2 ^ 32) (hfits : SumFits s (max size 16))
    (h : extendHeap s size = some (q, s')) : Within s s' q (max size 16) := by
  have hbrk := hI.brk
  have hle := hI.geo.blocks.le
  have htop := s.arena.start_top
  have hmax : s.memMaxAddr = s.arena.memStartBrk + maxHeap := rfl
  obtain ⟨P, ta, rfl, -⟩ := hI.geo.blocks.exists_tail
  rcases extendHeap_spec hI h8 h32 hfits with ⟨hfail, hwhy⟩ | ⟨P', ps, q', m', F', -, -, hq, hok, -⟩
  · rw [hfail] at h
    obtain ⟨-, rfl⟩ := Prod.mk.inj (Option.some.inj h)
    refine ⟨Nat.le_add_right _ _, fun _ => ?_⟩
    unfold maxHeap at *
    omega
  · rw [hok] at h
    obtain ⟨rfl, rfl⟩ := Prod.mk.inj (Option.some.inj h)
    exact ⟨Nat.le_of_eq (congrArg (· + max size 16) hbrk.symm), fun h => absurd h hq⟩

/-- **`mm_malloc`** takes no more than the block. -/
theorem mmMalloc_room (hI : Inv s L F) (hsz : size ≠ 0) (hfits : MallocFits s size)
    (h : mmMalloc s size = some (q, s')) : Within s s' q (allocSizeOf size) := by
  obtain ⟨h16, -, h32⟩ := allocSizeOf_spec size
  by_cases hno : ∀ b ∈ L, b.alloc = false → b.size < allocSizeOf size
  · have hsum := hI.growthFits hfits hsz hno
    have hgrows := growth_spec hI hsz hno hsum
    have hgrowth : growthOf s (allocSizeOf size) ≤ allocSizeOf size := max_le (Nat.sub_le _ _) h16
    have hsbrk := hI.memSbrk_fails_iff _ (hgrowth.trans_lt h32) hsum
    by_cases hfail : (memSbrk s (toInt32 (growthOf s (allocSizeOf size)))).1 = sbrkFail
    · rw [hgrows.refused hfail] at h
      obtain ⟨-, rfl⟩ := Prod.mk.inj (Option.some.inj h)
      refine ⟨Nat.le_add_right _ _, fun _ => ?_⟩
      rw [hI.brk]
      exact (hsbrk.mp hfail).trans_le (Nat.add_le_add_left hgrowth _)
    · obtain ⟨bp, s₁, s₂, -, hbp, -, -, hm, hbrk, -⟩ := hgrows.granted hfail
      rw [hm] at h
      obtain ⟨rfl, rfl⟩ := Prod.mk.inj (Option.some.inj h)
      exact ⟨hbrk.trans_le (Nat.add_le_add_left hgrowth _), fun h => absurd h hbp⟩
  · push Not at hno
    obtain ⟨b, hb, hbf, hle⟩ := hno
    obtain ⟨bp, s₁, hm, hbp, hbrk, -⟩ := mmMalloc_fits hI hsz hb hbf hle
    rw [hm] at h
    obtain ⟨rfl, rfl⟩ := Prod.mk.inj (Option.some.inj h)
    exact ⟨hbrk.trans_le (Nat.le_add_right _ _), fun h => absurd h hbp⟩

/-- `mm_free` writes to memory only. -/
theorem mmFree_brk (h : mmFree s p = some s') : s'.memBrk = s.memBrk := by
  unfold mmFree at h
  split_ifs at h
  · rw [← Option.some.inj h]
  · obtain ⟨m₁, -, h⟩ := Option.bind_eq_some_iff.mp h
    obtain ⟨⟨bp, m₂⟩, -, h⟩ := Option.bind_eq_some_iff.mp h
    rw [← Option.some.inj h]

theorem reallocShrink_brk (h : reallocShrink s p size = some s') : s'.memBrk = s.memBrk := by
  unfold reallocShrink at h
  dsimp only at h
  split_ifs at h
  · have hbrk := mmFree_brk h
    exact hbrk
  · rw [← Option.some.inj h]

/-- First step of `do_mm_realloc`: the room it takes, or lacks. -/
theorem reallocExtend_room {ok : Bool} (hI : Inv s (P ++ b :: n :: R) F) (h8 : size % 8 = 0) (h16 : 16 ≤ size)
    (h32 : size < 2 ^ 32) (hfits : AtEnd s b.ptr → size ≤ mergedSize s b.ptr ∨
      SumFits s (max (size - mergedSize s b.ptr) minBlockSize)) (h : reallocExtend s b.ptr size = some (ok, s')) :
    s'.memBrk ≤ s.memBrk + size ∧ (ok = false → s.memMaxAddr < s.memBrk + size) := by
  have hb : b ∈ P ++ b :: n :: R := by simp
  have hn : n ∈ P ++ b :: n :: R := by simp
  have hstay : some (true, s) = some (ok, s') →
      s'.memBrk ≤ s.memBrk + size ∧ (ok = false → s.memMaxAddr < s.memBrk + size) := by
    rintro h
    obtain ⟨rfl, rfl⟩ := Prod.mk.inj (Option.some.inj h)
    exact ⟨Nat.le_add_right _ _, fun h => absurd h.symm Bool.false_ne_true⟩
  rw [reallocExtend_eq] at h
  split_ifs at h with hend hlt
  · have hsum := (hfits hend).resolve_left (not_le.mpr hlt)
    rw [hI.mergedSize_eq] at h hlt hsum
    have hsub : subSz size (b.size + n.size) = size - (b.size + n.size) := by
      unfold subSz
      omega
    have hb8 := (hI.geo.sizeOk hb).1
    have hn8 := (hI.geo.sizeOk hn).1
    rw [hsub] at h
    obtain ⟨⟨bp, s₁⟩, hext, h⟩ := Option.map_eq_some_iff.mp h
    obtain ⟨rfl, rfl⟩ := Prod.mk.inj h
    have hroom := (extendHeap_room hI (by omega) (by omega) hsum hext).mono (d := size) (by omega)
    exact ⟨hroom.brk, fun h => hroom.null (not_not.mp (of_decide_eq_false h))⟩
  · exact hstay h
  · exact hstay h

/-- **`mm_realloc`** takes no more than two blocks. -/
theorem mmRealloc_room (hI : Inv s L F) (hu : Used L p t) (hsz : size ≠ 0) (hfits : ReallocFits s p size)
    (h : mmRealloc s p size = some (q, s')) : Within s s' q (2 * allocSizeOf size) := by
  obtain ⟨b, hb, hba, hb16, rfl, rfl⟩ := hu
  obtain ⟨P, n, R, rfl⟩ := hI.geo.blocks.exists_next hb hb16
  obtain ⟨h16, h8, h32⟩ := allocSizeOf_spec size
  have hp : b.ptr ≠ null := ne_of_gt (by have := hI.geo.ptr_pos hb; unfold null; omega)
  obtain ⟨hnext, -, -⟩ := hI.next_eq
  unfold mmRealloc at h
  rw [if_neg hp, if_neg hsz] at h
  obtain ⟨⟨ok, s₁⟩, hext, h⟩ := Option.bind_eq_some_iff.mp h
  obtain ⟨hbrk₁, hnull₁⟩ := reallocExtend_room hI h8 h16 h32 (hfits.atEnd hp hsz) hext
  rw [hnext] at h
  rcases reallocExtend_spec hI hba h8 h32 (hfits.atEnd hp hsz) with
    hfail | ⟨s₂, hok, n₁, R₁, F₁, hI₁, hn₁, ha₁, -, -, hroom⟩
  · rw [hfail] at hext
    obtain ⟨rfl, rfl⟩ := Prod.mk.inj (Option.some.inj hext)
    obtain ⟨rfl, rfl⟩ := Prod.mk.inj (Option.some.inj h)
    have := hnull₁ rfl
    exact ⟨by omega, fun _ => by omega⟩
  · rw [hok] at hext
    obtain ⟨rfl, rfl⟩ := Prod.mk.inj (Option.some.inj hext)
    obtain ⟨t₂, n₂, R₂, F₂, hI₂, hsize₂, -, -, hsub₂, hkeep₂⟩ := reallocMerge_spec hI₁ hba
    rw [hn₁] at hI₂
    have hgs : getSize (reallocMerge s₂.mem b.ptr n.ptr) (headerPtr b.ptr) = t₂ :=
      hI₂.getSize_eq (b := { b with size := t₂ }) (by simp)
    dsimp only at h
    rw [if_pos rfl] at h
    split_ifs at h with hle
    · -- in place
      obtain ⟨s₃, hshrink, h⟩ := Option.bind_eq_some_iff.mp h
      obtain ⟨rfl, rfl⟩ := Prod.mk.inj (Option.some.inj h)
      have hbrk := reallocShrink_brk hshrink
      change s₃.memBrk = s₂.memBrk at hbrk
      exact ⟨by omega, fun h => absurd h hp⟩
    · -- elsewhere
      obtain ⟨⟨r, s₃⟩, hm, h⟩ := Option.bind_eq_some_iff.mp h
      rw [hgs, not_le] at hle
      have hmove := Inv.move_fits hp hsz hfits hba hI₁ hroom hI₂ hsize₂ hsub₂ hkeep₂ hle
      obtain ⟨hbrk₃, hnull₃⟩ := mmMalloc_room hI₂ hsz hmove hm
      have hmax : s₂.memMaxAddr = s.memMaxAddr := congrArg (·.memStartBrk + maxHeap) ha₁
      change s₃.memBrk ≤ s₂.memBrk + _ at hbrk₃
      change r = null → s₂.memMaxAddr < s₂.memBrk + _ at hnull₃
      dsimp only at h
      split_ifs at h with hr
      · obtain ⟨rfl, rfl⟩ := Prod.mk.inj (Option.some.inj h)
        have := hnull₃ hr
        exact ⟨by omega, fun _ => by omega⟩
      · obtain ⟨s₄, hfree, h⟩ := Option.bind_eq_some_iff.mp h
        obtain ⟨rfl, rfl⟩ := Prod.mk.inj (Option.some.inj h)
        have hbrk := mmFree_brk hfree
        change s₄.memBrk = s₃.memBrk at hbrk
        exact ⟨by omega, fun h => absurd h hr⟩

end Room

end Csapp.Malloc
