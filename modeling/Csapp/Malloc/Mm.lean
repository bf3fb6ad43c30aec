import Csapp.Lib.Memory

/-!
# Malloc.Mm — the allocator `mm.c` over the memory system `memlib.c`

The default build of `labs/06_malloclab`: segregated free lists (`MM_SEGREGATED`), best fit
(`MM_BEST_FIT`), compiled with `-m32`, so `size_t` and pointers have 4 bytes.  Every function keeps
the name and the statement order of the source.

* Memory is a byte map; headers, footers and list links are little-endian words in it.
* `size_t` values are naturals below `2 ^ 32`; sums and differences that C computes in `size_t` are
  reduced modulo `2 ^ 32`.  Pointers are addresses below `2 ^ 32`, and the sum of a pointer and a size is reduced too.
  All addresses can be read and written: a write through a pointer that has left the heap changes what is there.
* `none` is an abort: a failed `assert`, or a list walk that does not come back to its head.
-/

namespace Csapp.Malloc

open Csapp.Lib

/-! ## Constants and the objects the allocator lives in -/

/-- `NULL`. -/
abbrev null : ℕ := 0

/-- `(void *)-1`, the failure value of `mem_sbrk`. -/
abbrev sbrkFail : ℕ := 2 ^ 32 - 1

/-- `SIZE_MAX`. -/
abbrev sizeMax : ℕ := 2 ^ 32 - 1

/-- `MAX_HEAP`, 20 MB. -/
abbrev maxHeap : ℕ := 20 * 2 ^ 20

/-- `MIN_BLOCK_SIZE`: a header, a footer and two list pointers. -/
abbrev minBlockSize : ℕ := 16

/-- `SEGREGATED_NUM_LISTS`. -/
abbrev numLists : ℕ := 10

/-- The two objects the C run time provides: the block `mem_start_brk` that `mem_init` obtains from
`malloc(MAX_HEAP)` and the static array `segregated_free_lists` (ten nodes of 8 bytes).  Both are
non-null, inside the 32-bit address space, aligned for their type (`malloc` to 8) and disjoint. -/
structure Arena where
  memStartBrk : ℕ
  segregatedFreeLists : ℕ
  /-- Whether `mem_sbrk` computes `mem_brk + incr` without the wrap of a 4-byte pointer, so that it fails exactly when
  the heap would exceed `MAX_HEAP`.  In the `-m32` build it does not. -/
  exactBrk : Bool
  start_pos : 0 < memStartBrk
  start_aligned : memStartBrk % 8 = 0
  start_top : memStartBrk + maxHeap < 2 ^ 32
  lists_pos : 0 < segregatedFreeLists
  lists_aligned : segregatedFreeLists % 4 = 0
  lists_top : segregatedFreeLists + 80 < 2 ^ 32
  apart : segregatedFreeLists + 80 ≤ memStartBrk ∨ memStartBrk + maxHeap ≤ segregatedFreeLists

/-- The static variables of `memlib.c` and `mm.c`, and memory. -/
structure State where
  arena : Arena
  mem : Mem
  memBrk : ℕ
  blockHead : ℕ
  blockTail : ℕ

/-- `mem_max_addr`. -/
def State.memMaxAddr (s : State) : ℕ := s.arena.memStartBrk + maxHeap

/-- Address of `segregated_free_lists[i]`. -/
def listHead (fl i : ℕ) : ℕ := fl + 8 * i

/-! ## `size_t` arithmetic -/

/-- `a + b` in `size_t`. -/
def addSz (a b : ℕ) : ℕ := (a + b) % 2 ^ 32

/-- `a - b` in `size_t`. -/
def subSz (a b : ℕ) : ℕ := (a + 2 ^ 32 - b) % 2 ^ 32

/-- `align`: round up to a multiple of 8. -/
def align (size : ℕ) : ℕ := addSz size 7 &&& 0xFFFFFFF8

/-! ## Headers and footers -/

def setMeta (m : Mem) (p size prevAlloc alloc : ℕ) : Mem :=
  store32 m p (size ||| (prevAlloc <<< 1) ||| alloc)

def setSize (m : Mem) (p size : ℕ) : Mem := store32 m p ((load32 m p &&& 0x7) ||| size)

def setPrevAlloc (m : Mem) (p prevAlloc : ℕ) : Mem :=
  store32 m p ((load32 m p &&& 0xFFFFFFFD) ||| (prevAlloc <<< 1))

def setAlloc (m : Mem) (p alloc : ℕ) : Mem := store32 m p ((load32 m p &&& 0xFFFFFFFE) ||| alloc)

def getSize (m : Mem) (p : ℕ) : ℕ := load32 m p &&& 0xFFFFFFF8

def getPrevAlloc (m : Mem) (p : ℕ) : ℕ := (load32 m p >>> 1) &&& 0x1

def getAlloc (m : Mem) (p : ℕ) : ℕ := load32 m p &&& 0x1

def headerPtr (bp : ℕ) : ℕ := bp - 4

def footerPtr (m : Mem) (bp : ℕ) : ℕ := addSz bp (getSize m (headerPtr bp)) - 8

def prevFooterPtr (bp : ℕ) : ℕ := bp - 8

def nextBlock (m : Mem) (bp : ℕ) : ℕ := addSz bp (getSize m (headerPtr bp))

def prevBlock (m : Mem) (bp : ℕ) : ℕ := bp - getSize m (prevFooterPtr bp)

def syncFooter (m : Mem) (bp : ℕ) : Mem :=
  store32 m (footerPtr m bp) (load32 m (headerPtr bp))

/-! ## Doubly linked lists (`list_node_t`: `prev` at offset 0, `next` at offset 4) -/

/-- `p->prev`. -/
def nodePrev (m : Mem) (p : ℕ) : ℕ := load32 m p

/-- `p->next`. -/
def nodeNext (m : Mem) (p : ℕ) : ℕ := load32 m (p + 4)

def listInit (m : Mem) (head : ℕ) : Mem :=
  let m := store32 m (head + 4) head
  store32 m head head

def listPushFront (m : Mem) (head node : ℕ) : Mem :=
  let m := store32 m node head
  let m := store32 m (node + 4) (nodeNext m head)
  let m := store32 m (nodeNext m head) node
  store32 m (head + 4) node

def listErase (m : Mem) (node : ℕ) : Mem :=
  let m := store32 m (nodePrev m node + 4) (nodeNext m node)
  store32 m (nodeNext m node) (nodePrev m node)

def listBegin (m : Mem) (head : ℕ) : ℕ := nodeNext m head

/-! ## `mm_check_heap` -/

/-- The assertions of one iteration of `mm_check_heap`. -/
def mmCheckBlock (s : State) (minSize bp : ℕ) : Bool :=
  let m := s.mem
  (if bp ≠ s.blockHead then decide (minSize ≤ getSize m (headerPtr bp))
    else decide (getSize m (headerPtr bp) = 8 ∧ getAlloc m (headerPtr bp) ≠ 0)) &&
  (if getAlloc m (headerPtr bp) = 0 then
    decide (load32 m (footerPtr m bp) = load32 m (headerPtr bp)) &&
      decide (getPrevAlloc m (headerPtr bp) ≠ 0 ∧ getAlloc m (headerPtr (nextBlock m bp)) ≠ 0)
    else true) &&
  decide (getAlloc m (headerPtr bp) = getPrevAlloc m (headerPtr (nextBlock m bp)))

/-- The loop of `mm_check_heap` from `bp`, and the assertion after it; `false` when an assertion
fails or the walk has not met `block_tail` after `fuel` blocks. -/
def mmCheckFrom (s : State) (minSize : ℕ) : ℕ → ℕ → Bool
  | 0, _ => false
  | fuel + 1, bp =>
    if bp = s.blockTail then
      decide (getSize s.mem (headerPtr bp) = 0 ∧ getAlloc s.mem (headerPtr bp) = 1)
    else mmCheckBlock s minSize bp && mmCheckFrom s minSize fuel (nextBlock s.mem bp)

/-- The pointers `mm_check_heap` visits from `bp` on, up to `block_tail`. -/
def heapWalkFrom (s : State) : ℕ → ℕ → Option (List ℕ)
  | 0, _ => none
  | fuel + 1, bp =>
    if bp = s.blockTail then some []
    else (heapWalkFrom s fuel (nextBlock s.mem bp)).map (bp :: ·)

/-- More blocks than fit in `MAX_HEAP` bytes: a longer walk never ends. -/
def walkFuel : ℕ := maxHeap / minBlockSize + 2

def mmCheckHeap (s : State) (minSize : ℕ) : Bool := mmCheckFrom s minSize walkFuel s.blockHead

def heapWalk (s : State) : Option (List ℕ) := heapWalkFrom s walkFuel s.blockHead

/-! ## Size classes -/

def segregatedFreeListMinSize (index : ℕ) : ℕ :=
  if index ≠ 0 then (minBlockSize <<< (index - 1)) + 1 else minBlockSize

def segregatedFreeListMaxSize (index : ℕ) : ℕ :=
  if index < numLists - 1 then minBlockSize <<< index else sizeMax

/-- `for (; size; size >>= 1) index++`: 32 rounds empty a `size_t`. -/
def countShifts : ℕ → ℕ → ℕ → ℕ
  | 0, _, index => index
  | rounds + 1, size, index =>
    if size ≠ 0 then countShifts rounds (size >>> 1) (index + 1) else index

/-- `segregated_free_list_lower_bound` past its assertion. -/
def sizeClass (size : ℕ) : ℕ :=
  min (countShifts 32 ((size - 1) / minBlockSize) 0) (numLists - 1)

def segregatedFreeListLowerBound (size : ℕ) : Option ℕ :=
  if minBlockSize ≤ size then some (sizeClass size) else none

/-! ## Segregated free lists (`fl` is the address of `segregated_free_lists`) -/

/-- `list_init` of the first `n` lists. -/
def segregatedFreeListInit (fl : ℕ) (m : Mem) : ℕ → Mem
  | 0 => m
  | n + 1 => listInit (segregatedFreeListInit fl m n) (listHead fl n)

def segregatedFreeListInsert (fl : ℕ) (m : Mem) (bp : ℕ) : Option Mem := do
  let idx ← segregatedFreeListLowerBound (getSize m (headerPtr bp))
  return listPushFront m (listHead fl idx) bp

def segregatedFreeListErase (m : Mem) (bp : ℕ) : Mem := listErase m bp

def segregatedFreeListUpdate (fl : ℕ) (m : Mem) (bp : ℕ) : Option Mem :=
  segregatedFreeListInsert fl (segregatedFreeListErase m bp) bp

/-- The nodes of a list from `fp` on, in `next` order. -/
def listWalkFrom (m : Mem) (list : ℕ) : ℕ → ℕ → Option (List ℕ)
  | 0, _ => none
  | fuel + 1, fp =>
    if fp = list then some [] else (listWalkFrom m list fuel (nodeNext m fp)).map (fp :: ·)

/-- The nodes visited by `for (fp = list_begin(list); fp != list_end(list); fp = fp->next)`. -/
def listWalk (m : Mem) (list : ℕ) : Option (List ℕ) :=
  listWalkFrom m list walkFuel (listBegin m list)

/-- Inner loop of `segregated_find_best_fit`: one list, from node `fp`. -/
def bestFitInList (m : Mem) (list allocSize : ℕ) : ℕ → ℕ → ℕ → ℕ → Option ℕ
  | 0, _, _, _ => none
  | fuel + 1, fp, bestBp, bestSize =>
    if fp = list then some bestBp
    else
      let blockSize := getSize m (headerPtr fp)
      if allocSize ≤ blockSize ∧ blockSize < bestSize then
        bestFitInList m list allocSize fuel (nodeNext m fp) fp blockSize
      else bestFitInList m list allocSize fuel (nodeNext m fp) bestBp bestSize

/-- Outer loop of `segregated_find_best_fit`: `n` lists from index `i` up. -/
def bestFitFrom (fl : ℕ) (m : Mem) (allocSize : ℕ) : ℕ → ℕ → Option ℕ
  | 0, _ => some null
  | n + 1, i => do
    let list := listHead fl i
    let bestBp ← bestFitInList m list allocSize walkFuel (listBegin m list) null sizeMax
    if bestBp ≠ null then return bestBp else bestFitFrom fl m allocSize n (i + 1)

def segregatedFindBestFit (fl : ℕ) (m : Mem) (allocSize : ℕ) : Option ℕ := do
  let i ← segregatedFreeListLowerBound allocSize
  bestFitFrom fl m allocSize (numLists - i) i

/-! ## Placement and coalescing -/

def place (fl : ℕ) (m : Mem) (bp allocSize : ℕ) : Option Mem :=
  let m := segregatedFreeListErase m bp
  let blockSize := getSize m (headerPtr bp)
  if blockSize < addSz allocSize minBlockSize then
    let m := setMeta m (headerPtr bp) blockSize 1 1
    some (setPrevAlloc m (headerPtr (nextBlock m bp)) 1)
  else
    let m := setMeta m (headerPtr bp) allocSize 1 1
    let nextBp := nextBlock m bp
    let m := setMeta m (headerPtr nextBp) (subSz blockSize allocSize) 1 0
    let m := syncFooter m nextBp
    segregatedFreeListInsert fl m nextBp

/-- The part of `coalesce` before `free_list_update`: the merged block and memory. -/
def coalesceMerge (m : Mem) (bp : ℕ) : ℕ × Mem :=
  let size := getSize m (headerPtr bp)
  let nextBp := nextBlock m bp
  let nextAlloc := getAlloc m (headerPtr nextBp)
  let nextSize := getSize m (headerPtr nextBp)
  let prevAlloc := getPrevAlloc m (headerPtr bp)
  if prevAlloc = 0 then
    let prevBp := prevBlock m bp
    let prevSize := getSize m (prevFooterPtr bp)
    if nextAlloc = 0 then
      let m := setMeta m (headerPtr prevBp) (addSz (addSz prevSize size) nextSize) 1 0
      let m := syncFooter m prevBp
      let m := segregatedFreeListErase m bp
      let m := segregatedFreeListErase m nextBp
      (prevBp, m)
    else
      let m := setMeta m (headerPtr prevBp) (addSz prevSize size) 1 0
      let m := syncFooter m prevBp
      let m := segregatedFreeListErase m bp
      (prevBp, m)
  else if nextAlloc = 0 then
    let m := setMeta m (headerPtr bp) (addSz size nextSize) 1 0
    let m := syncFooter m bp
    let m := segregatedFreeListErase m nextBp
    (bp, m)
  else (bp, m)

def coalesce (fl : ℕ) (m : Mem) (bp : ℕ) : Option (ℕ × Mem) := do
  let (bp, m) := coalesceMerge m bp
  let m ← segregatedFreeListUpdate fl m bp
  return (bp, m)

/-! ## The memory system -/

/-- The conversion of a `size_t` argument to `int`. -/
def toInt32 (n : ℕ) : ℤ := if n < 2 ^ 31 then n else n - 2 ^ 32

/-- State after `mem_init`, with arbitrary memory contents. -/
def memInit (arena : Arena) (mem : Mem) : State :=
  { arena, mem, memBrk := arena.memStartBrk, blockHead := null, blockTail := null }

/-- `mem_brk + incr`. -/
def State.brkSum (s : State) (incr : ℕ) : ℕ :=
  if s.arena.exactBrk then s.memBrk + incr else addSz s.memBrk incr

def memSbrk (s : State) (incr : ℤ) : ℕ × State :=
  if incr < 0 ∨ s.memMaxAddr < s.brkSum incr.toNat then (sbrkFail, s)
  else (s.memBrk, { s with memBrk := s.brkSum incr.toNat })

def extendHeap (s : State) (size : ℕ) : Option (ℕ × State) :=
  let size := max (align size) minBlockSize
  let (oldTail, s) := memSbrk s (toInt32 size)
  if oldTail = sbrkFail then some (null, s)
  else
    let blockTail := addSz oldTail size
    let m := s.mem
    let prevAlloc := getPrevAlloc m (headerPtr oldTail)
    let m := setMeta m (headerPtr oldTail) size prevAlloc 0
    let m := syncFooter m oldTail
    do
      let m ← segregatedFreeListInsert s.arena.segregatedFreeLists m oldTail
      let m := setMeta m (headerPtr blockTail) 0 0 1
      let (bp, m) ← coalesce s.arena.segregatedFreeLists m oldTail
      return (bp, { s with mem := m, blockTail := blockTail })

/-! ## The public operations -/

/-- `mm_init`; the first component is the return value. -/
def mmInit (s : State) : ℤ × State :=
  let m := segregatedFreeListInit s.arena.segregatedFreeLists s.mem numLists
  let r := memSbrk { s with mem := m } 16
  if r.1 = sbrkFail then (-1, { r.2 with blockHead := r.1 })
  else
    let blockHead := r.1 + 8
    let blockTail := blockHead + 8
    let m := setMeta r.2.mem (headerPtr blockHead) 8 1 1
    let m := setMeta m (headerPtr blockTail) 0 1 1
    (0, { r.2 with mem := m, blockHead := blockHead, blockTail := blockTail })

/-- `MAX(align(size + sizeof(size_t)), MIN_BLOCK_SIZE)`. -/
def allocSizeOf (size : ℕ) : ℕ := max (align (addSz size 4)) minBlockSize

/-- `place` on the allocator's state. -/
def State.place (s : State) (bp allocSize : ℕ) : Option State :=
  (Malloc.place s.arena.segregatedFreeLists s.mem bp allocSize).map fun m => { s with mem := m }

def mmMalloc (s : State) (size : ℕ) : Option (ℕ × State) :=
  if size = 0 then some (null, s)
  else
    let allocSize := allocSizeOf size
    do
      let bp ← segregatedFindBestFit s.arena.segregatedFreeLists s.mem allocSize
      if bp ≠ null then
        let s ← s.place bp allocSize
        return (bp, s)
      else
        let extendSize :=
          if getPrevAlloc s.mem (headerPtr s.blockTail) = 0 then
            subSz allocSize (getSize s.mem (prevFooterPtr s.blockTail))
          else allocSize
        let (bp, s) ← extendHeap s extendSize
        if bp = null then return (null, s)
        else
          let s ← s.place bp allocSize
          return (bp, s)

def mmFree (s : State) (ptr : ℕ) : Option State :=
  if ptr = null then some s
  else if getAlloc s.mem (headerPtr ptr) = 0 then none
  else
    let m := setAlloc s.mem (headerPtr ptr) 0
    let m := syncFooter m ptr
    do
      let m ← segregatedFreeListInsert s.arena.segregatedFreeLists m ptr
      let m := setPrevAlloc m (headerPtr (nextBlock m ptr)) 0
      let (_, m) ← coalesce s.arena.segregatedFreeLists m ptr
      return { s with mem := m }

/-- First step of `do_mm_realloc`: when `ptr` is the last block, or only a free block follows it,
extend the heap if the two together are too small.  The flag is `false` when `extend_heap` failed. -/
def reallocExtend (s : State) (ptr allocSize : ℕ) : Option (Bool × State) :=
  let m := s.mem
  let nextBp := nextBlock m ptr
  if nextBp = s.blockTail ∨
      (getAlloc m (headerPtr nextBp) = 0 ∧ nextBlock m nextBp = s.blockTail) then
    let mergedSize := addSz (getSize m (headerPtr ptr)) (getSize m (headerPtr nextBp))
    if mergedSize < allocSize then do
      let (bp, s) ← extendHeap s (subSz allocSize mergedSize)
      return (bp ≠ null, s)
    else some (true, s)
  else some (true, s)

/-- Second step of `do_mm_realloc`: absorb the next block if it is free. -/
def reallocMerge (m : Mem) (ptr nextBp : ℕ) : Mem :=
  if getAlloc m (headerPtr nextBp) = 0 then
    let m := segregatedFreeListErase m nextBp
    let m := setSize m (headerPtr ptr)
      (addSz (getSize m (headerPtr ptr)) (getSize m (headerPtr nextBp)))
    setPrevAlloc m (headerPtr (nextBlock m ptr)) 1
  else m

/-- Third step of `do_mm_realloc`: the block is large enough; split off the rest and free it. -/
def reallocShrink (s : State) (ptr allocSize : ℕ) : Option State :=
  let thisSize := getSize s.mem (headerPtr ptr)
  if addSz allocSize minBlockSize ≤ thisSize then
    let m := setSize s.mem (headerPtr ptr) allocSize
    let nextBp := nextBlock m ptr
    let m := setMeta m (headerPtr nextBp) (subSz thisSize allocSize) 1 1
    mmFree { s with mem := m } nextBp
  else some s

/-- Last step of `do_mm_realloc`: allocate elsewhere, copy, free the old block. -/
def reallocMove (s : State) (ptr size oldSize : ℕ) : Option (ℕ × State) := do
  let (newPtr, s) ← mmMalloc s size
  if newPtr = null then return (null, s)
  else
    let s := { s with mem := copyBytes s.mem newPtr ptr (min size oldSize) }
    let s ← mmFree s ptr
    return (newPtr, s)

def mmRealloc (s : State) (ptr size : ℕ) : Option (ℕ × State) :=
  if ptr = null then mmMalloc s size
  else if size = 0 then (mmFree s ptr).map fun s => (null, s)
  else
    let oldSize := subSz (getSize s.mem (headerPtr ptr)) 4
    let allocSize := allocSizeOf size
    let nextBp := nextBlock s.mem ptr
    do
      let (ok, s) ← reallocExtend s ptr allocSize
      if ok then
        let s := { s with mem := reallocMerge s.mem ptr nextBp }
        if allocSize ≤ getSize s.mem (headerPtr ptr) then
          let s ← reallocShrink s ptr allocSize
          return (ptr, s)
        else reallocMove s ptr size oldSize
      else return (null, s)

end Csapp.Malloc
