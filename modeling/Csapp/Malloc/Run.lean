import Csapp.Lib.Run
import Csapp.Malloc.Realloc

/-!
# Malloc.Run — the allocator and its client

A `World` is the allocator's state and the pointers its client holds.  The client calls `mm_malloc`,
`mm_free` and `mm_realloc` with any sizes, passes only `NULL` or pointers it holds, and writes bytes
into the blocks it holds.  `safeSystem_invariant`: in every run in which `mem_sbrk` computes no sum that wraps, the heap
has `Inv`, and the client holds exactly the blocks in use.
-/

namespace Csapp.Malloc

open Csapp.Lib

/-! ## Worlds and calls -/

/-- The allocator's state and the live pointers. -/
structure World where
  st : State
  live : List ℕ

/-- What a client does. -/
inductive Call
  | malloc (size : ℕ)
  | free (ptr : ℕ)
  | realloc (ptr size : ℕ)
  | write (addr : ℕ) (byte : UInt8)

/-- Sizes are 32-bit, pointers are `NULL` or live, writes stay between `bp` and
`bp + blocksize - 4` of a live block. -/
def Legal (w : World) : Call → Prop
  | .malloc size => size < 2 ^ 32
  | .free ptr => ptr = null ∨ ptr ∈ w.live
  | .realloc ptr size => (ptr = null ∨ ptr ∈ w.live) ∧ size < 2 ^ 32
  | .write addr _ => ∃ bp ∈ w.live, bp ≤ addr ∧ addr < bp + (blockSize w.st bp - 4)

/-- The live pointers after a pointer has been returned. -/
def hold (q : ℕ) (live : List ℕ) : List ℕ := if q = null then live else q :: live

/-- The effect of a call; the result is the pointer returned (`NULL` for `mm_free` and writes).  A
`mm_realloc` to a positive size that returns `NULL` leaves its argument live. -/
def exec (w : World) : Call → Option (ℕ × World)
  | .malloc size => do
    let (q, st) ← mmMalloc w.st size
    return (q, ⟨st, hold q w.live⟩)
  | .free ptr => do
    let st ← mmFree w.st ptr
    return (null, ⟨st, w.live.erase ptr⟩)
  | .realloc ptr size => do
    let (q, st) ← mmRealloc w.st ptr size
    return (q, ⟨st, if q = null ∧ size ≠ 0 then w.live else hold q (w.live.erase ptr)⟩)
  | .write addr byte => some (null, ⟨{ w.st with mem := store8 w.st.mem (addr % 2 ^ 32) byte }, w.live⟩)

/-- The allocator in arena `A` with its client, started by a successful `mm_init`. -/
def mmSystem (A : Arena) : System World Call ℕ where
  init w := ∃ m, mmInit (memInit A m) = (0, w.st) ∧ w.live = []
  legal := Legal
  exec := exec

instance (w : World) (c : Call) : Decidable (Legal w c) :=
  match c with
  | .malloc _ => inferInstanceAs (Decidable (_ < _))
  | .free _ => inferInstanceAs (Decidable (_ ∨ _))
  | .realloc _ _ => inferInstanceAs (Decidable (_ ∧ _))
  | .write addr _ => inferInstanceAs (Decidable (∃ bp ∈ w.live, bp ≤ addr ∧ addr < bp + (blockSize w.st bp - 4)))

instance (A : Arena) (w : World) (c : Call) : Decidable ((mmSystem A).legal w c) :=
  inferInstanceAs (Decidable (Legal w c))

/-- The call makes `mem_sbrk` compute no sum `mem_brk + incr` that wraps. -/
def NoWrap (w : World) : Call → Prop
  | .malloc size => MallocFits w.st size
  | .realloc ptr size => ReallocFits w.st ptr size
  | _ => True

instance (w : World) (c : Call) : Decidable (NoWrap w c) :=
  match c with
  | .malloc size => inferInstanceAs (Decidable (MallocFits w.st size))
  | .free _ => isTrue trivial
  | .realloc ptr size => inferInstanceAs (Decidable (ReallocFits w.st ptr size))
  | .write _ _ => isTrue trivial

/-- The runs in which no sum wraps. -/
abbrev safeSystem (A : Arena) : System World Call ℕ := (mmSystem A).restrict NoWrap

instance (A : Arena) (w : World) (c : Call) : Decidable ((safeSystem A).legal w c) :=
  inferInstanceAs (Decidable (Legal w c ∧ NoWrap w c))

/-- The client holds exactly the blocks in use. -/
structure Holds (live : List ℕ) (L : List Block) : Prop where
  nodup : live.Nodup
  mem : ∀ p, p ∈ live ↔ ∃ t, Used L p t

/-- The invariant of all runs. -/
def WorldInv (A : Arena) (w : World) : Prop :=
  w.st.arena = A ∧ ∃ L F, Inv w.st L F ∧ Holds w.live L

/-! ## `mm_init` -/

/-- `list_init` makes an empty list and writes eight bytes. -/
theorem listInit_spec {m : Mem} {head : ℕ} (h : head < 2 ^ 32) :
    nodeNext (listInit m head) head = head ∧ nodePrev (listInit m head) head = head ∧
      ∀ y, (y < head ∨ head + 8 ≤ y) → listInit m head y = m y := by
  refine ⟨?_, load32_store32_same h, fun y hy => ?_⟩
  · rw [nodeNext, listInit, load32_store32_of_disjoint (by omega)]
    exact load32_store32_same h
  · rw [listInit, store32_out (by omega), store32_out (by omega)]

/-- `free_list_init`, up to list `n`. -/
theorem segregatedFreeListInit_spec {fl : ℕ} (hfl : fl + 80 < 2 ^ 32) (m : Mem) :
    ∀ n ≤ 10, ∀ i < n, nodeNext (segregatedFreeListInit fl m n) (listHead fl i) = listHead fl i ∧
      nodePrev (segregatedFreeListInit fl m n) (listHead fl i) = listHead fl i
  | 0, _, i, hi => absurd hi (Nat.not_lt_zero i)
  | n + 1, hn, i, hi => by
    have hh : listHead fl n < 2 ^ 32 := by unfold listHead; omega
    obtain ⟨h1, h2, h3⟩ := listInit_spec (m := segregatedFreeListInit fl m n) hh
    by_cases hin : i = n
    · rw [hin]; exact ⟨h1, h2⟩
    · obtain ⟨h4, h5⟩ := segregatedFreeListInit_spec hfl m n (by omega) i (by omega)
      have hap : listHead fl i + 8 ≤ listHead fl n := by unfold listHead; omega
      refine ⟨Eq.trans (load32_congr fun y hy1 hy2 => h3 y (by omega)) h4,
        Eq.trans (load32_congr fun y hy1 hy2 => h3 y (by omega)) h5⟩

/-- The state after `mm_init`. -/
def initialState (A : Arena) (m : Mem) : State where
  arena := A
  mem := store32 (store32 (segregatedFreeListInit A.segregatedFreeLists m numLists)
    (A.memStartBrk + 4) (word 8 true true)) (A.memStartBrk + 12) (word 0 true true)
  memBrk := A.memStartBrk + 16
  blockHead := A.memStartBrk + 8
  blockTail := A.memStartBrk + 16

/-- `mm_init` when `mem_sbrk` returns `p`. -/
theorem mmInit_of_sbrk {s s' : State} {p : ℕ} (hp : p ≠ sbrkFail)
    (h : memSbrk { s with
      mem := segregatedFreeListInit s.arena.segregatedFreeLists s.mem numLists } 16 = (p, s')) :
    mmInit s = (0, { s' with
      mem := setMeta (setMeta s'.mem (headerPtr (p + 8)) 8 1 1) (headerPtr (p + 8 + 8)) 0 1 1
      blockHead := p + 8
      blockTail := p + 8 + 8 }) := by
  simp only [mmInit, h, if_neg hp]

/-- **`mm_init`** succeeds on a fresh memory system. -/
theorem mmInit_eq (A : Arena) (m : Mem) : mmInit (memInit A m) = (0, initialState A m) := by
  have h0 : A.memStartBrk ≠ sbrkFail := by
    have := A.start_top; unfold sbrkFail maxHeap at *; omega
  have hs : memSbrk { memInit A m with
        mem := segregatedFreeListInit A.segregatedFreeLists m numLists } 16 =
      (A.memStartBrk, { memInit A m with
        mem := segregatedFreeListInit A.segregatedFreeLists m numLists
        memBrk := A.memStartBrk + 16 }) := by
    have htop := A.start_top
    refine memSbrk_of_room (Nat.add_le_add_left ?_ _) ?_
    · decide
    · show A.memStartBrk + 16 < 2 ^ 32
      unfold maxHeap at htop
      omega
  have hw1 : ∀ m', setMeta m' (headerPtr (A.memStartBrk + 8)) 8 1 1 =
      store32 m' (A.memStartBrk + 4) (word 8 true true) := fun m' =>
    setMeta_eq ⟨rfl, by omega⟩ true true
  have hw2 : ∀ m', setMeta m' (headerPtr (A.memStartBrk + 8 + 8)) 0 1 1 =
      store32 m' (A.memStartBrk + 12) (word 0 true true) := fun m' =>
    setMeta_eq ⟨rfl, by omega⟩ true true
  rw [mmInit_of_sbrk h0 hs, hw1, hw2]
  rfl

/-- After `mm_init` the heap has no blocks and the lists are empty. -/
theorem initialState_inv (A : Arena) (m : Mem) :
    Inv (initialState A m) [⟨A.memStartBrk + 16, 0, true, true⟩] (fun _ => []) := by
  have hap := A.apart
  have htop := A.lists_top
  set mi := segregatedFreeListInit A.segregatedFreeLists m numLists with hmi
  -- the two header words lie outside the list heads
  have hlists : FreeLists A (initialState A m).mem (fun _ => []) := by
    have hout : ∀ i : Fin 10, ∀ y, headOf A i ≤ y → y < headOf A i + 8 →
        (initialState A m).mem y = mi y := by
      intro i y h1 h2
      have := headOf_outside A i
      unfold maxHeap at this
      show store32 _ _ _ y = mi y
      rw [store32_out (by omega), store32_out (by omega)]
    refine ⟨fun i => ring_nil_iff.mpr ?_, fun i => List.nodup_nil, fun i j a ha => ?_, headOf_inj A,
      fun i j h => ?_⟩
    · obtain ⟨h1, h2⟩ := segregatedFreeListInit_spec htop m 10 le_rfl i i.isLt
      exact ⟨Eq.trans (load32_congr fun y hy1 hy2 => hout i y (by omega) (by omega)) h1,
        Eq.trans (load32_congr fun y hy1 hy2 => hout i y (by omega) (by omega)) h2⟩
    · exact absurd ha List.not_mem_nil
    · exact absurd h List.not_mem_nil
  have hmax : A.memStartBrk + 16 ≤ A.memStartBrk + maxHeap := by unfold maxHeap; omega
  refine ⟨⟨⟨.tail true, hmax⟩, fun b hb => ?_, fun b hb hbf => ?_, hlists, fun i a => ?_⟩, rfl, rfl, ?_,
    fun b hb hbf => ?_⟩
  · rw [List.mem_singleton.mp hb]
    exact load32_store32_same (word_lt ⟨rfl, by omega⟩ true true)
  · rw [List.mem_singleton.mp hb] at hbf
    exact absurd hbf (by simp)
  · simp
  · show load32 (store32 _ (A.memStartBrk + 12) _) (A.memStartBrk + 4) = _
    rw [load32_store32_of_disjoint (by omega)]
    exact load32_store32_same (word_lt ⟨rfl, by omega⟩ true true)
  · rw [List.mem_singleton.mp hb] at hbf
    exact absurd hbf (by simp)

/-! ## What the client holds -/

section Holding

variable {s : State} {live : List ℕ} {L L' : List Block} {F : Fin 10 → List ℕ} {p r v : ℕ}

/-- `r` replaces `p`. -/
theorem Holds.replace (hH : Holds live L) (hr : r = p ∨ ∀ w, ¬ Used L r w)
    (h : ∀ q w, Used L' q w ↔ (Used L q w ∧ q ≠ p) ∨ (q = r ∧ w = v)) :
    Holds (r :: live.erase p) L' where
  nodup := by
    refine List.nodup_cons.mpr ⟨fun hm => ?_, hH.nodup.erase p⟩
    rw [hH.nodup.mem_erase_iff, hH.mem] at hm
    obtain ⟨hne, w, hw⟩ := hm
    exact hr.elim hne fun hn => hn w hw
  mem q := by
    rw [List.mem_cons, hH.nodup.mem_erase_iff, hH.mem]
    constructor
    · rintro (rfl | ⟨hne, w, hw⟩)
      · exact ⟨v, (h q v).mpr (Or.inr ⟨rfl, rfl⟩)⟩
      · exact ⟨w, (h q w).mpr (Or.inl ⟨hw, hne⟩)⟩
    · rintro ⟨w, hw⟩
      rcases (h q w).mp hw with ⟨hw, hne⟩ | ⟨rfl, -⟩
      · exact Or.inr ⟨hne, w, hw⟩
      · exact Or.inl rfl

theorem Holds.erase (hH : Holds live L) (h : ∀ q w, Used L' q w ↔ Used L q w ∧ q ≠ p) :
    Holds (live.erase p) L' where
  nodup := hH.nodup.erase p
  mem q := by
    rw [hH.nodup.mem_erase_iff, hH.mem]
    constructor
    · rintro ⟨hne, w, hw⟩
      exact ⟨w, (h q w).mpr ⟨hw, hne⟩⟩
    · rintro ⟨w, hw⟩
      obtain ⟨hw, hne⟩ := (h q w).mp hw
      exact ⟨hne, w, hw⟩

/-- The block `p` may have another size. -/
theorem Holds.resize (hH : Holds live L) (hp : p ∈ live)
    (h : ∀ q w, Used L' q w ↔ (Used L q w ∧ q ≠ p) ∨ (q = p ∧ w = v)) : Holds live L' where
  nodup := hH.nodup
  mem q := by
    rw [hH.mem]
    constructor
    · rintro ⟨w, hw⟩
      by_cases hq : q = p
      · exact ⟨v, (h q v).mpr (Or.inr ⟨hq, rfl⟩)⟩
      · exact ⟨w, (h q w).mpr (Or.inl ⟨hw, hq⟩)⟩
    · rintro ⟨w, hw⟩
      rcases (h q w).mp hw with ⟨hw, -⟩ | ⟨rfl, -⟩
      · exact ⟨w, hw⟩
      · exact (hH.mem q).mp hp

theorem Holds.null_notMem (hH : Holds live L) (hI : Inv s L F) : null ∉ live := by
  intro hm
  obtain ⟨t, b, hb, -, -, hp, -⟩ := (hH.mem null).mp hm
  have := hI.geo.ptr_pos hb
  unfold null at hp
  omega

theorem Holds.push (hH : Holds live L) (hI : Inv s L F) (hr : ∀ w, ¬ Used L r w)
    (h : ∀ q w, Used L' q w ↔ Used L q w ∨ (q = r ∧ w = v)) : Holds (r :: live) L' := by
  have hn := hH.null_notMem hI
  have := hH.replace (p := null) (Or.inr hr) fun q w => (h q w).trans <| or_congr_left <|
    ⟨fun hw => ⟨hw, fun e => hn ((hH.mem null).mpr ⟨w, e ▸ hw⟩)⟩, And.left⟩
  rwa [List.erase_of_not_mem hn] at this

end Holding

/-! ## Every call keeps the invariant -/

section Steps

variable {A : Arena} {w : World}

theorem malloc_step (h : WorldInv A w) (n : ℕ) (hfits : MallocFits w.st n) :
    ∃ q st, mmMalloc w.st n = some (q, st) ∧ WorldInv A ⟨st, hold q w.live⟩ := by
  obtain ⟨hA, L, F, hI, hH⟩ := h
  rcases mmMalloc_spec hI n hfits with ⟨hm, -⟩ | ⟨r, s', L', F', t, hm, hr, -, hI', ha, -, hnew, hus, -⟩
  · exact ⟨null, w.st, hm, hA, L, F, hI, hH⟩
  · refine ⟨r, s', hm, ha.trans hA, L', F', hI', ?_⟩
    rw [hold, if_neg hr]
    exact hH.push hI hnew hus

theorem free_step (h : WorldInv A w) {p : ℕ} (hp : p = null ∨ p ∈ w.live) :
    ∃ st, mmFree w.st p = some st ∧ WorldInv A ⟨st, w.live.erase p⟩ := by
  obtain ⟨hA, L, F, hI, hH⟩ := h
  rcases hp with rfl | hp
  · refine ⟨w.st, rfl, hA, L, F, hI, ?_⟩
    rwa [List.erase_of_not_mem (hH.null_notMem hI)]
  · obtain ⟨t, ht⟩ := (hH.mem p).mp hp
    obtain ⟨m', L', F', hm, hI', hus, -⟩ := mmFree_spec hI ht
    exact ⟨_, hm, hA, L', F', hI', hH.erase hus⟩

theorem realloc_step (h : WorldInv A w) {p n : ℕ} (hp : p = null ∨ p ∈ w.live) (hfits : ReallocFits w.st p n) :
    ∃ q st, mmRealloc w.st p n = some (q, st) ∧
      WorldInv A ⟨st, if q = null ∧ n ≠ 0 then w.live else hold q (w.live.erase p)⟩ := by
  obtain ⟨hA, L, F, hI, hH⟩ := h
  by_cases hp0 : p = null
  · rw [ReallocFits, if_pos hp0] at hfits
    obtain ⟨q, st, hm, hw⟩ := malloc_step ⟨hA, L, F, hI, hH⟩ n hfits
    refine ⟨q, st, by rw [mmRealloc, if_pos hp0, hm], ?_⟩
    rw [hp0, List.erase_of_not_mem (hH.null_notMem hI)]
    by_cases hq : q = null
    · simpa [hold, hq] using hw
    · rwa [if_neg (fun hc => hq hc.1)]
  · have hp := hp.resolve_left hp0
    by_cases hn : n = 0
    · obtain ⟨st, hm, hw⟩ := free_step ⟨hA, L, F, hI, hH⟩ (Or.inr hp)
      refine ⟨null, st, by rw [mmRealloc, if_neg hp0, if_pos hn, hm]; rfl, ?_⟩
      rwa [if_neg (fun hc => hc.2 hn), hold, if_pos rfl]
    · obtain ⟨t, ht⟩ := (hH.mem p).mp hp
      obtain ⟨r, s', L', F', v, hm, hI', ha, -, hres⟩ := mmRealloc_spec hI ht hn hfits
      refine ⟨r, s', hm, ha.trans hA, L', F', hI', ?_⟩
      rcases hres with ⟨rfl, -, hus, -⟩ | ⟨hr, hrp, -, hus, -⟩
      · rw [if_pos ⟨rfl, hn⟩]
        exact hH.resize hp hus
      · rw [if_neg (fun hc => hr hc.1), hold, if_neg hr]
        exact hH.replace hrp hus

theorem write_step (h : WorldInv A w) {a : ℕ} {c : UInt8}
    (ha : ∃ bp ∈ w.live, bp ≤ a ∧ a < bp + (blockSize w.st bp - 4)) :
    WorldInv A ⟨{ w.st with mem := store8 w.st.mem (a % 2 ^ 32) c }, w.live⟩ := by
  obtain ⟨hA, L, F, hI, hH⟩ := h
  obtain ⟨bp, hbp, h1, h2⟩ := ha
  obtain ⟨t, ht⟩ := (hH.mem bp).mp hbp
  have hlt : a < bp + (t - 4) ∧ a < 2 ^ 32 := by
    obtain ⟨b, hb, -, -, rfl, rfl⟩ := id ht
    rw [blockSize, hI.getSize_eq hb] at h2
    have := (hI.geo.mem_in hb).top; have := hI.geo.top; have := w.st.arena.start_top
    exact ⟨h2, by omega⟩
  rw [Nat.mod_eq_of_lt hlt.2]
  refine ⟨hA, L, F, hI.client_write fun y hy => store8_out ?_, hH⟩
  rintro rfl
  exact hy (ht.client h1 hlt.1)

/-- **Where no sum wraps, no legal call aborts, and the invariant holds in all runs.** -/
theorem safeSystem_invariant (A : Arena) : (safeSystem A).Invariant (WorldInv A) where
  init := by
    rintro ⟨st, live⟩ ⟨m, hm, hl⟩
    rw [mmInit_eq] at hm
    obtain rfl : initialState A m = st := (Prod.mk.inj hm).2
    obtain rfl : live = [] := hl
    exact ⟨rfl, _, _, initialState_inv A m, ⟨List.nodup_nil, fun p => by simp [used_cons]⟩⟩
  step w c hw hl := by
    cases c with
    | malloc n =>
      obtain ⟨q, st, hm, hw'⟩ := malloc_step hw n hl.2
      exact ⟨q, _, by simp [mmSystem, System.restrict, exec, hm], hw'⟩
    | free p =>
      obtain ⟨st, hm, hw'⟩ := free_step hw hl.1
      exact ⟨null, _, by simp [mmSystem, System.restrict, exec, hm], hw'⟩
    | realloc p n =>
      obtain ⟨q, st, hm, hw'⟩ := realloc_step (n := n) hw hl.1.1 hl.2
      exact ⟨q, _, by simp [mmSystem, System.restrict, exec, hm], hw'⟩
    | write a c => exact ⟨null, _, rfl, write_step hw hl.1⟩

/-- Where `mem_sbrk` fails exactly when the heap would be too large, that is so in every run. -/
theorem mmSystem_invariant (hA : A.exactBrk = true) : (mmSystem A).Invariant (WorldInv A) :=
  (safeSystem_invariant A).of_restrict fun w c hw _ => by
    have hexact : w.st.arena.exactBrk = true := by rw [hw.1, hA]
    cases c with
    | malloc n => exact MallocFits.of_exact hexact n
    | realloc p n => exact ReallocFits.of_exact hexact p n
    | free p => trivial
    | write a v => trivial

end Steps

end Csapp.Malloc
