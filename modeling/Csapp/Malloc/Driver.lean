import Csapp.Malloc.Room
import Mathlib.Data.Finset.Basic

/-!
# Malloc.Driver — `mdriver.c` checks the allocator

`eval_mm_valid` runs a trace of requests on a fresh heap, keeps the extent of every block in a list of ranges, and fills
every block with the low byte of its index, which it looks for again after `mm_realloc`.  `trace_verdict` says what it
can find: no block of `mm.c` is ever misaligned, outside the heap or on top of another one, and no request fails while
there is room for the trace.  But the bytes are read through a `char`, which has a sign, so that a block whose index
has a low byte of 128 or more is reported as lost by every `mm_realloc`.
-/

namespace Csapp.Malloc

open Csapp.Lib

/-! ## The ranges -/

/-- `range_t`: the first and the last byte of a payload. -/
structure Range where
  lo : ℕ
  hi : ℕ

/-- What `malloc_error` is called with. -/
inductive Fault
  /-- `mm_init failed.` -/
  | init
  /-- `mm_malloc failed.` -/
  | malloc
  /-- `mm_realloc failed.` -/
  | realloc
  /-- `mm_realloc did not preserve the data from old block` -/
  | notPreserved
  /-- `Payload address (%p) not aligned to %d bytes` -/
  | notAligned (lo : ℕ)
  /-- `Payload (%p:%p) lies outside heap (%p:%p)` -/
  | outside (lo hi heapLo heapHi : ℕ)
  /-- `Payload (%p:%p) overlaps another payload (%p:%p)` -/
  | overlaps (lo hi lo' hi' : ℕ)

def memResetBrk (s : State) : State := { s with memBrk := s.arena.memStartBrk }

def memHeapLo (s : State) : ℕ := s.arena.memStartBrk

def memHeapHi (s : State) : ℕ := s.memBrk - 1

/-- `add_range`; `none` is the failed assertion. -/
def addRange (s : State) (ranges : List Range) (lo size : ℕ) : Option (Except Fault (List Range)) :=
  if size = 0 then none
  else
    let hi := lo + size - 1
    if lo % 8 ≠ 0 then some (.error (.notAligned lo))
    else if lo < memHeapLo s ∨ memHeapHi s < lo ∨ hi < memHeapLo s ∨ memHeapHi s < hi then
      some (.error (.outside lo hi (memHeapLo s) (memHeapHi s)))
    else
      match ranges.find? fun p => (p.lo ≤ lo ∧ lo ≤ p.hi) ∨ (p.lo ≤ hi ∧ hi ≤ p.hi) with
      | some p => some (.error (.overlaps lo hi p.lo p.hi))
      | none => some (.ok (⟨lo, hi⟩ :: ranges))

/-- `remove_range`: the first range that starts at `lo`. -/
def removeRange (ranges : List Range) (lo : ℕ) : List Range := ranges.eraseP (·.lo = lo)

/-! ## The trace -/

/-- `traceop_t`; a size is an `int`. -/
inductive TraceOp
  | alloc (index size : ℕ)
  | realloc (index size : ℕ)
  | free (index : ℕ)

/-- The allocator, the ranges, and `blocks` and `block_sizes` of the trace. -/
structure Driver where
  st : State
  ranges : List Range
  blocks : ℕ → ℕ
  blockSizes : ℕ → ℕ

/-- `memset`. -/
def memset (m : Mem) (p c : ℕ) : ℕ → Mem
  | 0 => m
  | n + 1 => store8 (memset m p c n) (p + n) (UInt8.ofNat c)

/-- The value of the `char` at `p`: it has a sign. -/
def charAt (m : Mem) (p : ℕ) : ℤ := (m p).toInt8.toInt

/-- The block of `index` is recorded and filled. -/
def remember (d : Driver) (st : State) (ranges : List Range) (index p size : ℕ) : Driver where
  st := { st with mem := memset st.mem p (index &&& 0xFF) size }
  ranges := ranges
  blocks := Function.update d.blocks index p
  blockSizes := Function.update d.blockSizes index size

/-- One round of the loop of `eval_mm_valid`. -/
def evalOp (d : Driver) : TraceOp → Option (Except Fault Driver)
  | .alloc index size =>
    (mmMalloc d.st size).bind fun (p, st) =>
      if p = null then some (.error .malloc)
      else (addRange st d.ranges p size).map fun
        | .error f => .error f
        | .ok ranges => .ok (remember d st ranges index p size)
  | .realloc index size =>
    let oldp := d.blocks index
    (mmRealloc d.st oldp size).bind fun (newp, st) =>
      if newp = null then some (.error .realloc)
      else (addRange st (removeRange d.ranges oldp) newp size).map fun
        | .error f => .error f
        | .ok ranges =>
          let oldsize := min size (d.blockSizes index)
          if (List.range oldsize).all fun j => charAt st.mem (newp + j) = ((index &&& 0xFF : ℕ) : ℤ) then
            .ok (remember d st ranges index newp size)
          else .error .notPreserved
  | .free index =>
    let p := d.blocks index
    (mmFree d.st p).map fun st => .ok { d with st := st, ranges := removeRange d.ranges p }

/-- The loop of `eval_mm_valid` from operation `i`: the first error, with its operation. -/
def evalOps : ℕ → Driver → List TraceOp → Option (Option (ℕ × Fault))
  | _, _, [] => some none
  | i, d, op :: ops =>
    (evalOp d op).bind fun
      | .error f => some (some (i, f))
      | .ok d => evalOps (i + 1) d ops

/-- `eval_mm_valid`, in the state that the trace before has left; the two arrays are not initialised. -/
def evalMmValid (s : State) (blocks blockSizes : ℕ → ℕ) (ops : List TraceOp) : Option (Option (ℕ × Fault)) :=
  let r := mmInit (memResetBrk s)
  if r.1 < 0 then some (some (0, .init)) else evalOps 0 ⟨r.2, [], blocks, blockSizes⟩ ops

/-! ## Traces -/

/-- Blocks are reallocated and freed only while they are live; sizes are not negative. -/
def TraceOp.Legal (live : Finset ℕ) : TraceOp → Prop
  | .alloc _ size => size < 2 ^ 31
  | .realloc index size => index ∈ live ∧ size < 2 ^ 31
  | .free index => index ∈ live

/-- The blocks that are live then. -/
def TraceOp.after (live : Finset ℕ) : TraceOp → Finset ℕ
  | .alloc index _ => insert index live
  | .realloc _ _ => live
  | .free index => live.erase index

def WellFormed : Finset ℕ → List TraceOp → Prop
  | _, [] => True
  | live, op :: ops => op.Legal live ∧ WellFormed (op.after live) ops

/-- `mem_brk` and the block requested have a sum below `2 ^ 32`, wherever `mem_brk` is. -/
def TraceOp.Unwrapped (A : Arena) : TraceOp → Prop
  | .alloc _ size => A.memStartBrk + maxHeap + allocSizeOf size < 2 ^ 32
  | .realloc _ size => A.memStartBrk + maxHeap + allocSizeOf size < 2 ^ 32
  | .free _ => True

/-- What an operation may take of the heap. -/
def TraceOp.cost : TraceOp → ℕ
  | .alloc _ size => allocSizeOf size
  | .realloc _ size => 2 * allocSizeOf size
  | .free _ => 0

/-- What the operations may take of the heap. -/
def traceCost : List TraceOp → ℕ
  | [] => 0
  | op :: ops => op.cost + traceCost ops

/-- The operations that pass if there is room: requests for something, and no `mm_realloc` of a block whose bytes are
negative as `char`. -/
def TraceOp.Passes : TraceOp → Prop
  | .alloc _ size => 0 < size
  | .realloc index size => 0 < size ∧ index % 256 < 128
  | .free _ => True

/-- What the driver can find at an operation, when the trace up to it may take so much. -/
def Blames (cost : ℕ) : TraceOp → Fault → Prop
  | .alloc _ size, .malloc => size = 0 ∨ maxHeap < 16 + cost
  | .realloc _ size, .realloc => size = 0 ∨ maxHeap < 16 + cost
  | .realloc index _, .notPreserved => 128 ≤ index % 256
  | _, _ => False

/-- The verdict on the operations from `i` on, after some that may take so much. -/
def Verdict (i spent : ℕ) (ops : List TraceOp) : Option (ℕ × Fault) → Prop
  | none => ∀ op ∈ ops, op.Passes
  | some (k, f) => ∃ before op after, ops = before ++ op :: after ∧ k = i + before.length ∧
      (∀ op ∈ before, op.Passes) ∧ Blames (spent + (traceCost before + op.cost)) op f

/-! ## The bytes of a block -/

section Bytes

variable {m : Mem} {p c n x : ℕ}

theorem memset_in : ∀ {n : ℕ}, p ≤ x → x < p + n → memset m p c n x = UInt8.ofNat c
  | 0, h1, h2 => absurd h2 (not_lt.mpr h1)
  | n + 1, h1, h2 => by
    rw [memset]
    by_cases hx : x = p + n
    · rw [hx, store8_self]
    · rw [store8_out hx]
      exact memset_in h1 (by omega)

theorem memset_out : ∀ {n : ℕ}, x < p ∨ p + n ≤ x → memset m p c n x = m x
  | 0, _ => rfl
  | n + 1, h => by
    rw [memset, store8_out (by omega)]
    exact memset_out (by omega)

/-- A byte read through a `char` is itself only below 128. -/
theorem charAt_eq_iff (hm : m x = UInt8.ofNat c) (hc : c < 256) : charAt m x = (c : ℤ) ↔ c < 128 := by
  have hchar : charAt m x = (BitVec.ofNat 8 c).toInt := congrArg (fun b : UInt8 => b.toInt8.toInt) hm
  rw [hchar, BitVec.toInt_ofNat', Int.bmod_def]
  omega

end Bytes

/-! ## What the driver keeps -/

/-- Of ranges with different starts none is left at `lo`. -/
theorem removeRange_lo {lo : ℕ} {r : Range} : ∀ {ranges : List Range}, (ranges.map Range.lo).Nodup →
    r ∈ removeRange ranges lo → r.lo ≠ lo
  | [], _, hr => absurd hr List.not_mem_nil
  | x :: ranges, h, hr => by
    rw [List.map_cons, List.nodup_cons] at h
    unfold removeRange at hr
    by_cases hx : x.lo = lo
    · rw [List.eraseP_cons_of_pos (by simpa using hx)] at hr
      intro hlo
      refine h.1 ?_
      rw [hx, ← hlo]
      exact List.mem_map_of_mem hr
    · rw [List.eraseP_cons_of_neg (by simpa using hx)] at hr
      rcases List.mem_cons.mp hr with rfl | hr
      · exact hx
      · exact removeRange_lo h.2 hr

/-- The live blocks of the trace are different blocks in use, long enough, and filled; the ranges lie in blocks in use,
no two in the same one. -/
structure Tracks (U : ℕ → ℕ → Prop) (live : Finset ℕ) (m : Mem) (ranges : List Range) (blocks sizes : ℕ → ℕ) :
    Prop where
  used : ∀ i ∈ live, ∃ t, U (blocks i) t ∧ sizes i + 4 ≤ t
  pos : ∀ i ∈ live, 0 < sizes i
  inj : ∀ i ∈ live, ∀ j ∈ live, blocks i = blocks j → i = j
  filled : ∀ i ∈ live, ∀ k < sizes i, m (blocks i + k) = UInt8.ofNat (i &&& 0xFF)
  range : ∀ r ∈ ranges, ∃ t, U r.lo t ∧ r.hi + 4 < r.lo + t
  nodup : (ranges.map Range.lo).Nodup

section Tracking

variable {U U' : ℕ → ℕ → Prop} {live : Finset ℕ} {m m' : Mem} {ranges : List Range} {blocks sizes : ℕ → ℕ}
  {i p t size : ℕ}

theorem Tracks.nil (U : ℕ → ℕ → Prop) (m : Mem) (blocks sizes : ℕ → ℕ) : Tracks U ∅ m [] blocks sizes where
  used i hi := absurd hi (Finset.notMem_empty i)
  pos i hi := absurd hi (Finset.notMem_empty i)
  inj i hi := absurd hi (Finset.notMem_empty i)
  filled i hi := absurd hi (Finset.notMem_empty i)
  range _ hr := absurd hr List.not_mem_nil
  nodup := List.nodup_nil

theorem Tracks.keep (h : Tracks U live m ranges blocks sizes) (hkeep : ∀ q w, U q w → SameAt m m' q (w - 4)) :
    Tracks U live m' ranges blocks sizes where
  used := h.used
  pos := h.pos
  inj := h.inj
  filled i hi k hk := by
    obtain ⟨t, ht, hle⟩ := h.used i hi
    rw [hkeep _ _ ht (blocks i + k) (Nat.le_add_right _ _) (by omega)]
    exact h.filled i hi k hk
  range := h.range
  nodup := h.nodup

/-- The block of `i` is no longer in use. -/
theorem Tracks.erase (h : Tracks U live m ranges blocks sizes) (hi : i ∈ live)
    (hkeep : ∀ q w, U q w → q ≠ blocks i → SameAt m m' q (w - 4)) :
    Tracks (fun q w => U q w ∧ q ≠ blocks i) (live.erase i) m' (removeRange ranges (blocks i)) blocks sizes where
  used j hj := by
    obtain ⟨hne, hj⟩ := Finset.mem_erase.mp hj
    obtain ⟨t, ht, hle⟩ := h.used j hj
    exact ⟨t, ⟨ht, fun he => hne (h.inj j hj i hi he)⟩, hle⟩
  pos j hj := h.pos j (Finset.mem_of_mem_erase hj)
  inj j hj k hk := h.inj j (Finset.mem_of_mem_erase hj) k (Finset.mem_of_mem_erase hk)
  filled j hj k hk := by
    obtain ⟨hne, hj⟩ := Finset.mem_erase.mp hj
    obtain ⟨t, ht, hle⟩ := h.used j hj
    rw [hkeep _ _ ht (fun he => hne (h.inj j hj i hi he)) (blocks j + k) (Nat.le_add_right _ _) (by omega)]
    exact h.filled j hj k hk
  range r hr := by
    obtain ⟨t, ht, hle⟩ := h.range r (List.mem_of_mem_eraseP hr)
    exact ⟨t, ⟨ht, removeRange_lo h.nodup hr⟩, hle⟩
  nodup := h.nodup.sublist (List.eraseP_sublist.map Range.lo)

/-- A new block is recorded and filled. -/
theorem Tracks.place (h : Tracks U live m ranges blocks sizes) (i : ℕ)
    (hused : ∀ q w, U' q w ↔ U q w ∨ (q = p ∧ w = t)) (hnew : ∀ w, ¬ U p w)
    (hapart : ∀ q w, U q w → q + w ≤ p ∨ p + t ≤ q) (hpos : 0 < size) (hsize : size + 4 ≤ t) :
    Tracks U' (insert i live) (memset m p (i &&& 0xFF) size) (⟨p, p + size - 1⟩ :: ranges)
      (Function.update blocks i p) (Function.update sizes i size) := by
  have hold : ∀ {j}, j ∈ insert i live → j ≠ i → j ∈ live := fun hj hne =>
    (Finset.mem_insert.mp hj).resolve_left hne
  have hp : U' p t := (hused p t).mpr (Or.inr ⟨rfl, rfl⟩)
  have hne : ∀ j ∈ live, blocks j ≠ p := fun j hj he => by
    obtain ⟨w, hw, -⟩ := h.used j hj
    exact hnew w (he ▸ hw)
  refine ⟨fun j hj => ?_, fun j hj => ?_, fun j hj k hk => ?_, fun j hj k hk => ?_, fun r hr => ?_, ?_⟩
  · by_cases hji : j = i
    · rw [hji, Function.update_self, Function.update_self]
      exact ⟨t, hp, hsize⟩
    · rw [Function.update_of_ne hji, Function.update_of_ne hji]
      obtain ⟨w, hw, hle⟩ := h.used j (hold hj hji)
      exact ⟨w, (hused _ _).mpr (Or.inl hw), hle⟩
  · by_cases hji : j = i
    · rwa [hji, Function.update_self]
    · rw [Function.update_of_ne hji]
      exact h.pos j (hold hj hji)
  · by_cases hji : j = i
    · by_cases hki : k = i
      · exact fun _ => hji.trans hki.symm
      · rw [hji, Function.update_self, Function.update_of_ne hki]
        exact fun he => absurd he.symm (hne k (hold hk hki))
    · by_cases hki : k = i
      · rw [hki, Function.update_self, Function.update_of_ne hji]
        exact fun he => absurd he (hne j (hold hj hji))
      · rw [Function.update_of_ne hji, Function.update_of_ne hki]
        exact h.inj j (hold hj hji) k (hold hk hki)
  · by_cases hji : j = i
    · rw [hji, Function.update_self] at hk
      rw [hji, Function.update_self]
      exact memset_in (Nat.le_add_right p k) (Nat.add_lt_add_left hk p)
    · rw [Function.update_of_ne hji] at hk
      rw [Function.update_of_ne hji]
      obtain ⟨w, hw, hle⟩ := h.used j (hold hj hji)
      have := hapart _ _ hw
      rw [memset_out (by omega)]
      exact h.filled j (hold hj hji) k hk
  · rcases List.mem_cons.mp hr with rfl | hr
    · exact ⟨t, hp, show p + size - 1 + 4 < p + t by omega⟩
    · obtain ⟨w, hw, hle⟩ := h.range r hr
      exact ⟨w, (hused _ _).mpr (Or.inl hw), hle⟩
  · rw [List.map_cons, List.nodup_cons]
    refine ⟨fun hmem => ?_, h.nodup⟩
    obtain ⟨r, hr, hlo⟩ := List.mem_map.mp hmem
    obtain ⟨w, hw, -⟩ := h.range r hr
    rw [show r.lo = p from hlo] at hw
    exact hnew w hw

end Tracking

/-! ## One operation -/

/-- The invariant of the loop: the heap is in order, the driver's records are true, and the operations so far have taken
no more than `spent` bytes of the heap. -/
def DriverInv (A : Arena) (live : Finset ℕ) (spent : ℕ) (d : Driver) : Prop :=
  d.st.arena = A ∧ d.st.memBrk ≤ A.memStartBrk + 16 + spent ∧
    ∃ L F, Inv d.st L F ∧ Tracks (Used L) live d.st.mem d.ranges d.blocks d.blockSizes

section Operations

variable {A : Arena} {live : Finset ℕ} {spent cost i size : ℕ} {d : Driver} {s st : State} {L : List Block}
  {F : Fin 10 → List ℕ} {U : ℕ → ℕ → Prop} {ranges : List Range} {p t : ℕ}

/-- A block in use passes `add_range`. -/
theorem addRange_eq (hI : Inv s L F) (hp : Used L p t) (hpos : 0 < size) (hsize : size + 4 ≤ t)
    (hranges : ∀ r ∈ ranges, r.lo ≠ p ∧ ∃ w, Used L r.lo w ∧ r.hi + 4 < r.lo + w) :
    addRange s ranges p size = some (.ok (⟨p, p + size - 1⟩ :: ranges)) := by
  have hfind : (ranges.find? fun r => (r.lo ≤ p ∧ p ≤ r.hi) ∨ (r.lo ≤ p + size - 1 ∧ p + size - 1 ≤ r.hi)) = none := by
    refine List.find?_eq_none.mpr fun r hr => ?_
    obtain ⟨hne, w, hw, hhi⟩ := hranges r hr
    have hapart := hI.geo.used_disjoint hw hp hne
    rw [decide_eq_true_iff]
    omega
  obtain ⟨b, hb, -, -, rfl, rfl⟩ := hp
  have hal := hI.geo.ptr_aligned hb
  have hin := hI.geo.mem_in hb
  have hlo := hin.lo
  have htop := hin.top
  have hbrk := hI.brk
  unfold addRange memHeapLo memHeapHi
  dsimp only
  rw [if_neg (Nat.ne_of_gt hpos), if_neg (not_not.mpr hal), if_neg (by omega), hfind]

/-- A new block is accepted, and recorded. -/
theorem remember_spec (hI : Inv st L F) (hA : st.arena = A) (hbrk : st.memBrk ≤ A.memStartBrk + 16 + spent)
    (h : Tracks U live st.mem ranges d.blocks d.blockSizes) (i : ℕ)
    (hused : ∀ q w, Used L q w ↔ U q w ∨ (q = p ∧ w = t)) (hnew : ∀ w, ¬ U p w) (hpos : 0 < size)
    (hsize : size + 4 ≤ t) :
    addRange st ranges p size = some (.ok (⟨p, p + size - 1⟩ :: ranges)) ∧
      DriverInv A (insert i live) spent (remember d st (⟨p, p + size - 1⟩ :: ranges) i p size) := by
  have hp : Used L p t := (hused p t).mpr (Or.inr ⟨rfl, rfl⟩)
  have hne : ∀ q w, U q w → q ≠ p := fun q w hq he => hnew w (he ▸ hq)
  have hranges : ∀ r ∈ ranges, r.lo ≠ p ∧ ∃ w, Used L r.lo w ∧ r.hi + 4 < r.lo + w := fun r hr => by
    obtain ⟨w, hw, hhi⟩ := h.range r hr
    exact ⟨hne _ w hw, w, (hused _ _).mpr (Or.inl hw), hhi⟩
  have hapart : ∀ q w, U q w → q + w ≤ p ∨ p + t ≤ q := fun q w hq =>
    hI.geo.used_disjoint ((hused q w).mpr (Or.inl hq)) hp (hne q w hq)
  refine ⟨addRange_eq hI hp hpos hsize hranges, hA, hbrk, L, F, ?_, h.place i hused hnew hapart hpos hsize⟩
  refine hI.client_write fun y hy => memset_out ?_
  by_contra hin
  push Not at hin
  exact hy (hp.client hin.1 (by omega))

/-- A request is refused only if there is no room for the trace up to it. -/
theorem full_of_null (hA : s.arena = A) (hbrk : s.memBrk ≤ A.memStartBrk + 16 + spent)
    (h : Within s st null cost) : maxHeap < 16 + (spent + cost) := by
  have hnull := h.null rfl
  have hmax : s.memMaxAddr = A.memStartBrk + maxHeap := congrArg (·.memStartBrk + maxHeap) hA
  omega

theorem spent_of_within (hbrk : s.memBrk ≤ A.memStartBrk + 16 + spent) (h : Within s st p cost) :
    st.memBrk ≤ A.memStartBrk + 16 + (spent + cost) := by
  have := h.brk
  omega

/-- What an operation does: it passes, or the driver blames it. -/
def Evaluates (A : Arena) (live : Finset ℕ) (spent : ℕ) (d : Driver) (op : TraceOp) : Prop :=
  (∃ d', evalOp d op = some (.ok d') ∧ op.Passes ∧ DriverInv A (op.after live) (spent + op.cost) d') ∨
    ∃ f, evalOp d op = some (.error f) ∧ Blames (spent + op.cost) op f

theorem evalAlloc_spec (h : DriverInv A live spent d) (i : ℕ) (h31 : size < 2 ^ 31)
    (hsafe : A.memStartBrk + maxHeap + allocSizeOf size < 2 ^ 32) : Evaluates A live spent d (.alloc i size) := by
  obtain ⟨hA, hbrk, L, F, hI, htracks⟩ := h
  have hfits : MallocFits d.st size := hI.mallocFits_of_lt (by rw [State.memMaxAddr, hA]; exact hsafe)
  rcases mmMalloc_spec hI size hfits with ⟨hm, -⟩ | ⟨r, s', L', F', t, hm, hr, hsz, hI', ha, ht, hnew, hus, hk⟩
  · refine Or.inr ⟨.malloc, by rw [evalOp, hm]; rfl, ?_⟩
    by_cases hsz : size = 0
    · exact Or.inl hsz
    · exact Or.inr (full_of_null hA hbrk (mmMalloc_room hI hsz hfits hm))
  · have hle : size + 4 ≤ t := (le_allocSizeOf (by omega)).trans ht
    have hbrk' := spent_of_within hbrk (mmMalloc_room hI hsz hfits hm)
    obtain ⟨hadd, hinv⟩ :=
      remember_spec hI' (ha.trans hA) hbrk' (htracks.keep hk) i hus hnew (Nat.pos_of_ne_zero hsz) hle
    refine Or.inl ⟨_, ?_, Nat.pos_of_ne_zero hsz, hinv⟩
    rw [evalOp, hm, Option.bind_some]
    dsimp only
    rw [if_neg hr, hadd, Option.map_some]

theorem evalFree_spec (h : DriverInv A live spent d) (hi : i ∈ live) : Evaluates A live spent d (.free i) := by
  obtain ⟨hA, hbrk, L, F, hI, htracks⟩ := h
  obtain ⟨t, hu, -⟩ := htracks.used i hi
  obtain ⟨m', L', F', hm, hI', hus, hkeep⟩ := mmFree_spec hI hu
  have hU : Used L' = fun q w => Used L q w ∧ q ≠ d.blocks i := funext₂ fun q w => propext (hus q w)
  refine Or.inl ⟨{ d with st := { d.st with mem := m' }, ranges := removeRange d.ranges (d.blocks i) }, ?_, trivial, hA,
    hbrk, L', F', hI', ?_⟩
  · rw [evalOp, hm]
    rfl
  rw [hU]
  exact htracks.erase hi hkeep

/-- The bytes of a block pass the check below 128. -/
theorem preserved_iff {m : Mem} {n : ℕ} (hn : 0 < n) (h : ∀ j < n, m (p + j) = UInt8.ofNat (i &&& 0xFF)) :
    ((List.range n).all fun j => charAt m (p + j) = ((i &&& 0xFF : ℕ) : ℤ)) = true ↔ i % 256 < 128 := by
  have hmod : i &&& 0xFF = i % 256 := Nat.and_two_pow_sub_one_eq_mod i 8
  have hchar : ∀ j < n, charAt m (p + j) = ((i &&& 0xFF : ℕ) : ℤ) ↔ i % 256 < 128 := fun j hj => by
    rw [charAt_eq_iff (h j hj) (by omega), hmod]
  rw [List.all_eq_true]
  constructor
  · intro hall
    exact (hchar 0 hn).mp (of_decide_eq_true (hall 0 (List.mem_range.mpr hn)))
  · intro hlt j hj
    exact decide_eq_true ((hchar j (List.mem_range.mp hj)).mpr hlt)

theorem evalRealloc_spec (h : DriverInv A live spent d) (hi : i ∈ live) (h31 : size < 2 ^ 31)
    (hsafe : A.memStartBrk + maxHeap + allocSizeOf size < 2 ^ 32) : Evaluates A live spent d (.realloc i size) := by
  obtain ⟨hA, hbrk, L, F, hI, htracks⟩ := h
  have hfits : ReallocFits d.st (d.blocks i) size := hI.reallocFits_of_lt (by rw [State.memMaxAddr, hA]; exact hsafe)
  obtain ⟨t, hu, hle⟩ := htracks.used i hi
  by_cases hsz : size = 0
  · obtain ⟨m', L', F', hm, -⟩ := mmFree_spec hI hu
    have hp : d.blocks i ≠ null := by
      obtain ⟨b, hb, -, -, hptr, -⟩ := id hu
      have := hI.geo.ptr_pos hb
      unfold null
      omega
    refine Or.inr ⟨.realloc, ?_, Or.inl hsz⟩
    rw [evalOp, mmRealloc, if_neg hp, if_pos hsz, hm]
    rfl
  · obtain ⟨r, s', L', F', v, hm, hI', ha, hkeep, hres⟩ := mmRealloc_spec hI hu hsz hfits
    have hroom := mmRealloc_room hI hu hsz hfits hm
    rcases hres with ⟨rfl, -⟩ | ⟨hr, hnew, hv, hus, hbytes⟩
    · refine Or.inr ⟨.realloc, ?_, Or.inr (full_of_null hA hbrk hroom)⟩
      rw [evalOp, hm]
      rfl
    · have halloc : size + 4 ≤ allocSizeOf size := le_allocSizeOf (by omega)
      have hnew' : ∀ w, ¬ (Used L r w ∧ r ≠ d.blocks i) := fun w hw =>
        hnew.elim (fun he => hw.2 he) (fun hn => hn w hw.1)
      obtain ⟨hadd, hinv⟩ := remember_spec hI' (ha.trans hA) (spent_of_within hbrk hroom) (htracks.erase hi hkeep) i
        hus hnew' (Nat.pos_of_ne_zero hsz) (halloc.trans hv)
      rw [Finset.insert_erase hi] at hinv
      have hsame : ∀ j < min size (d.blockSizes i), s'.mem (r + j) = UInt8.ofNat (i &&& 0xFF) := fun j hj => by
        rw [hbytes j (by omega) (by omega) (by omega)]
        exact htracks.filled i hi j (by omega)
      have hcheck := preserved_iff (lt_min (Nat.pos_of_ne_zero hsz) (htracks.pos i hi)) hsame
      have heval : evalOp d (.realloc i size) = some (if i % 256 < 128 then
          .ok (remember d s' (⟨r, r + size - 1⟩ :: removeRange d.ranges (d.blocks i)) i r size)
          else .error .notPreserved) := by
        rw [evalOp, hm, Option.bind_some]
        dsimp only
        rw [if_neg hr, hadd, Option.map_some]
        exact congrArg some (if_congr hcheck rfl rfl)
      by_cases hlt : i % 256 < 128
      · exact Or.inl ⟨_, heval.trans (congrArg some (if_pos hlt)), ⟨Nat.pos_of_ne_zero hsz, hlt⟩, hinv⟩
      · exact Or.inr ⟨.notPreserved, heval.trans (congrArg some (if_neg hlt)), not_lt.mp hlt⟩

theorem evalOp_spec (h : DriverInv A live spent d) {op : TraceOp} (hop : op.Legal live) (hsafe : op.Unwrapped A) :
    Evaluates A live spent d op := by
  cases op with
  | alloc i size => exact evalAlloc_spec h i hop hsafe
  | realloc i size => exact evalRealloc_spec h hop.1 hop.2 hsafe
  | free i => exact evalFree_spec h hop

end Operations

/-! ## The whole trace -/

section Traces

variable {A : Arena} {live : Finset ℕ} {spent i : ℕ} {d : Driver} {ops : List TraceOp} {r : Option (ℕ × Fault)}

/-- A verdict behind an operation that has passed. -/
theorem Verdict.cons {op : TraceOp} (hop : op.Passes) (h : Verdict (i + 1) (spent + op.cost) ops r) :
    Verdict i spent (op :: ops) r := by
  cases r with
  | none =>
    intro op' hop'
    rcases List.mem_cons.mp hop' with rfl | hop'
    · exact hop
    · exact h op' hop'
  | some x =>
    obtain ⟨before, op', after, rfl, hk, hbefore, hblames⟩ := h
    refine ⟨op :: before, op', after, rfl, ?_, fun op'' hop'' => ?_, ?_⟩
    · rw [hk, List.length_cons]
      omega
    · rcases List.mem_cons.mp hop'' with rfl | hop''
      · exact hop
      · exact hbefore op'' hop''
    · rw [traceCost, Nat.add_assoc, ← Nat.add_assoc spent]
      exact hblames

theorem evalOps_spec (h : DriverInv A live spent d) (hops : WellFormed live ops)
    (hsafe : ∀ op ∈ ops, op.Unwrapped A) : ∃ r, evalOps i d ops = some r ∧ Verdict i spent ops r := by
  induction ops generalizing i d live spent with
  | nil => exact ⟨none, rfl, fun op hop => absurd hop List.not_mem_nil⟩
  | cons op ops ih =>
    rcases evalOp_spec h hops.1 (hsafe op List.mem_cons_self) with ⟨d', heval, hpasses, h'⟩ | ⟨f, heval, hblames⟩
    · obtain ⟨r, hrun, hverdict⟩ := ih (i := i + 1) h' hops.2 fun op' hop' => hsafe op' (List.mem_cons_of_mem _ hop')
      refine ⟨r, ?_, hverdict.cons hpasses⟩
      rw [evalOps, heval]
      exact hrun
    · refine ⟨some (i, f), by rw [evalOps, heval]; rfl, [], op, ops, rfl, rfl, ?_, ?_⟩
      · exact fun op' hop' => absurd hop' List.not_mem_nil
      · rw [traceCost, Nat.zero_add]
        exact hblames

/-- `mm_init` after `mem_reset_brk` makes the heap that it makes after `mem_init`. -/
theorem mmInit_reset (s : State) : mmInit (memResetBrk s) = (0, initialState s.arena s.mem) := by
  have htop := s.arena.start_top
  have hsbrk : s.arena.memStartBrk ≠ sbrkFail := by
    unfold sbrkFail maxHeap at *
    omega
  have hroom : ∀ s' : State, s'.arena = s.arena → s'.memBrk = s.arena.memStartBrk →
      memSbrk s' 16 = (s.arena.memStartBrk, { s' with memBrk := s.arena.memStartBrk + 16 }) := fun s' ha hbrk => by
    have hmax : s'.memMaxAddr = s.arena.memStartBrk + maxHeap := congrArg (·.memStartBrk + maxHeap) ha
    rw [← hbrk]
    refine memSbrk_of_room ?_ ?_
    · rw [hmax, hbrk]
      exact Nat.add_le_add_left (by decide) _
    · rw [hbrk]
      exact lt_of_le_of_lt (Nat.add_le_add_left (by decide) _) htop
  rw [← mmInit_eq, mmInit_of_sbrk (s := memResetBrk s) hsbrk (hroom _ rfl rfl),
    mmInit_of_sbrk (s := memInit s.arena s.mem) hsbrk (hroom _ rfl rfl)]
  rfl

theorem traceCost_append (before after : List TraceOp) :
    traceCost (before ++ after) = traceCost before + traceCost after := by
  induction before with
  | nil => exact (Nat.zero_add _).symm
  | cons op before ih => rw [List.cons_append, traceCost, traceCost, ih, Nat.add_assoc]

/-- What is blamed where there is room does not pass. -/
theorem Blames.not_passes {cost : ℕ} {op : TraceOp} {f : Fault} (h : Blames cost op f) (hroom : 16 + cost ≤ maxHeap) :
    ¬ op.Passes := by
  intro hpass
  cases op with
  | free => cases f <;> exact h
  | alloc i size =>
    cases f with
    | malloc => exact h.elim (Nat.ne_of_gt hpass) (not_lt.mpr hroom)
    | _ => exact h
  | realloc i size =>
    cases f with
    | realloc => exact h.elim (Nat.ne_of_gt hpass.1) (not_lt.mpr hroom)
    | notPreserved => exact absurd hpass.2 (not_lt.mpr h)
    | _ => exact h

/-- **`eval_mm_valid`** with `mm.c`, whatever the trace before has left, for requests that do not wrap: it comes to a
verdict, and where there is room for the trace it accepts the allocator iff every operation passes. -/
theorem evalMmValid_spec (s : State) (blocks blockSizes : ℕ → ℕ) (hops : WellFormed ∅ ops)
    (hsafe : ∀ op ∈ ops, op.Unwrapped s.arena) : ∃ r, evalMmValid s blocks blockSizes ops = some r ∧ Verdict 0 0 ops r ∧
      (16 + traceCost ops ≤ maxHeap → (r = none ↔ ∀ op ∈ ops, op.Passes)) := by
  have hinv : DriverInv s.arena ∅ 0 ⟨initialState s.arena s.mem, [], blocks, blockSizes⟩ :=
    ⟨rfl, le_rfl, _, _, initialState_inv s.arena s.mem, .nil _ _ _ _⟩
  obtain ⟨r, hrun, hverdict⟩ := evalOps_spec (i := 0) hinv hops hsafe
  refine ⟨r, ?_, hverdict, fun hroom => ⟨?_, fun hpass => ?_⟩⟩
  · unfold evalMmValid
    rw [mmInit_reset]
    exact hrun
  · rintro rfl
    exact hverdict
  · cases r with
    | none => rfl
    | some x =>
      obtain ⟨before, op, after, rfl, -, -, hblames⟩ := hverdict
      rw [traceCost_append, traceCost, ← Nat.add_assoc (traceCost before)] at hroom
      exact absurd (hpass op (List.mem_append_right _ (List.mem_cons_self ..))) (hblames.not_passes (by omega))

end Traces

/-- The same requests for the blocks 0 and 128: the first are accepted, the others not. -/
theorem evalMmValid_spec_sample :
    evalMmValid (memInit sampleArena fun _ => 0) (fun _ => 0) (fun _ => 0)
        [.alloc 0 100, .alloc 1 8, .realloc 0 300, .free 1] = some none ∧
      evalMmValid (memInit sampleArena fun _ => 0) (fun _ => 0) (fun _ => 0)
        [.alloc 128 100, .alloc 1 8, .realloc 128 300, .free 1] ≠ some none := by
  have hwell : ∀ i, i ≠ 1 → WellFormed ∅ [.alloc i 100, .alloc 1 8, .realloc i 300, .free 1] := fun i hi =>
    ⟨show 100 < 2 ^ 31 by decide, show 8 < 2 ^ 31 by decide,
      ⟨Finset.mem_insert_of_mem (Finset.mem_insert_self i ∅), show 300 < 2 ^ 31 by decide⟩,
      Finset.mem_insert_self 1 _, trivial⟩
  have hroom : ∀ i, 16 + traceCost [.alloc i 100, .alloc 1 8, .realloc i 300, .free 1] ≤ maxHeap := fun i =>
    show 16 + (allocSizeOf 100 + (allocSizeOf 8 + (2 * allocSizeOf 300 + (0 + 0)))) ≤ maxHeap by decide
  have hsafe : ∀ i, ∀ op ∈ [TraceOp.alloc i 100, .alloc 1 8, .realloc i 300, .free 1],
      op.Unwrapped sampleArena := by
    intro i op hop
    simp only [List.mem_cons, List.not_mem_nil, or_false] at hop
    rcases hop with rfl | rfl | rfl | rfl
    · show 0x1000 + maxHeap + allocSizeOf 100 < 2 ^ 32
      decide
    · show 0x1000 + maxHeap + allocSizeOf 8 < 2 ^ 32
      decide
    · show 0x1000 + maxHeap + allocSizeOf 300 < 2 ^ 32
      decide
    · trivial
  obtain ⟨r, hrun, -, hr⟩ := evalMmValid_spec (memInit sampleArena fun _ => 0) (fun _ => 0) (fun _ => 0)
    (hwell 0 (by decide)) (hsafe 0)
  obtain ⟨r', hrun', -, hr'⟩ := evalMmValid_spec (memInit sampleArena fun _ => 0) (fun _ => 0) (fun _ => 0)
    (hwell 128 (by decide)) (hsafe 128)
  constructor
  · have hpass : ∀ op ∈ [TraceOp.alloc 0 100, .alloc 1 8, .realloc 0 300, .free 1], op.Passes := by
      intro op hop
      simp only [List.mem_cons, List.not_mem_nil, or_false] at hop
      rcases hop with rfl | rfl | rfl | rfl
      · exact Nat.succ_pos 99
      · exact Nat.succ_pos 7
      · exact ⟨Nat.succ_pos 299, Nat.succ_pos 127⟩
      · trivial
    rw [hrun, (hr (hroom 0)).mpr hpass]
  · rw [hrun']
    intro h
    have hpass := (hr' (hroom 128)).mp (Option.some.inj h) (.realloc 128 300) (by simp)
    exact absurd hpass.2 (show ¬ 128 % 256 < 128 by decide)

end Csapp.Malloc
