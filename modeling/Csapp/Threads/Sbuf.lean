import Csapp.Lib.Count
import Csapp.Lib.Run
import Csapp.Lib.Window

/-!
# Threads.Sbuf — the bounded buffer of the prethreaded server

Any number of threads call `sbuf_insert` and `sbuf_remove`, again and again.  A step of a thread is one semaphore
operation, one read or one write of `front` or `rear`, or one access to `buf`.  The items that are in the buffer,
and those that are on their way, are counted by the semaphores: `reserved` tells which threads have a slot in hand
that holds no item, and `announced` which have an item in hand that `items` does not count.

`front` and `rear` count all items; the `int`s are these numbers modulo `2^32`.  So the buffer is a queue as long as no
more than `INT_MAX` items have been inserted; the item behind them is written below `buf` (`index`).
-/

namespace Csapp.Threads

open Csapp.Lib

def INT_MAX : ℕ := 2 ^ 31 - 1

inductive SbufCall
  | insert (item : Int32)
  | remove

/-- Where a thread stands; the operation named is the next one. -/
inductive SbufPc
  | idle
  | insertSlots (item : Int32)
  | insertMutex (item : Int32)
  | insertRead (item : Int32)
  | insertRear (item : Int32) (v : ℕ)
  | insertStore (item : Int32) (v : ℕ)
  | insertUnlock
  | insertItems
  | removeItems
  | removeMutex
  | removeRead
  | removeFront (v : ℕ)
  | removeLoad (v : ℕ)
  | removeUnlock (item : Int32)
  | removeSlots (item : Int32)
  deriving DecidableEq

namespace SbufPc

def inMutex : SbufPc → Bool
  | insertRead _ | insertRear _ _ | insertStore _ _ | insertUnlock => true
  | removeRead | removeFront _ | removeLoad _ | removeUnlock _ => true
  | _ => false

/-- The thread has a slot in which no item is. -/
def reserved : SbufPc → Bool
  | insertMutex _ | insertRead _ | insertRear _ _ | insertStore _ _ | removeUnlock _ | removeSlots _ => true
  | _ => false

/-- The thread has an item that is in the buffer. -/
def announced : SbufPc → Bool
  | insertUnlock | insertItems | removeMutex | removeRead | removeFront _ | removeLoad _ => true
  | _ => false

/-- `rear` is ahead of the items. -/
def atStore : SbufPc → Bool
  | insertStore _ _ => true
  | _ => false

/-- `front` is ahead of the items. -/
def atLoad : SbufPc → Bool
  | removeLoad _ => true
  | _ => false

/-- The thread is outside of the calls, or at the first `P` of one. -/
def waits : SbufPc → Bool
  | idle | insertSlots _ | removeItems => true
  | _ => false

end SbufPc

/-- The threads and `sbuf_t`; `inserted` and `removed` are the accesses to `buf` so far, with their threads. -/
structure Sbuf (ι : Type*) where
  pc : ι → SbufPc
  buf : ℕ → Int32
  n : ℕ
  front : ℕ
  rear : ℕ
  mutex : ℕ
  slots : ℕ
  items : ℕ
  inserted : List (ι × Int32)
  removed : List (ι × Int32)

namespace Sbuf

variable {ι : Type*} [DecidableEq ι]

def sbuf_init (n : ℕ) : Sbuf ι := ⟨fun _ => .idle, fun _ => 0, n, 0, 0, 1, n, 0, [], []⟩

def goto (s : Sbuf ι) (i : ι) (pc : SbufPc) : Sbuf ι := { s with pc := Function.update s.pc i pc }

/-- The cell `buf[v % n]`, where the `int` has `v` modulo `2^32`; there is none where it is negative. -/
def index (v n : ℕ) : Option ℕ :=
  let k := (Int32.ofNat v).toInt.tmod n
  if k < 0 then none else some k.toNat

/-- One operation of thread `i`; `call` is what a thread that is idle begins with.  `P` waits while its semaphore
is 0, and there is no step where `buf` has no cell. -/
def step (s : Sbuf ι) (i : ι) (call : SbufCall) : Option (Sbuf ι) :=
  match s.pc i with
  | .idle =>
    match call with
    | .insert item => some (s.goto i (.insertSlots item))
    | .remove => some (s.goto i .removeItems)
  -- sbuf_insert
  | .insertSlots item =>
    if 0 < s.slots then some { s.goto i (.insertMutex item) with slots := s.slots - 1 } else none
  | .insertMutex item =>
    if 0 < s.mutex then some { s.goto i (.insertRead item) with mutex := s.mutex - 1 } else none
  | .insertRead item => some (s.goto i (.insertRear item s.rear))
  | .insertRear item v => some { s.goto i (.insertStore item (v + 1)) with rear := v + 1 }
  | .insertStore item v => (index v s.n).map fun k =>
    { s.goto i .insertUnlock with
      buf := Function.update s.buf k item
      inserted := s.inserted ++ [(i, item)] }
  | .insertUnlock => some { s.goto i .insertItems with mutex := s.mutex + 1 }
  | .insertItems => some { s.goto i .idle with items := s.items + 1 }
  -- sbuf_remove
  | .removeItems => if 0 < s.items then some { s.goto i .removeMutex with items := s.items - 1 } else none
  | .removeMutex => if 0 < s.mutex then some { s.goto i .removeRead with mutex := s.mutex - 1 } else none
  | .removeRead => some (s.goto i (.removeFront s.front))
  | .removeFront v => some { s.goto i (.removeLoad (v + 1)) with front := v + 1 }
  | .removeLoad v => (index v s.n).map fun k =>
    { s.goto i (.removeUnlock (s.buf k)) with removed := s.removed ++ [(i, s.buf k)] }
  | .removeUnlock item => some { s.goto i (.removeSlots item) with mutex := s.mutex + 1 }
  | .removeSlots _ => some { s.goto i .idle with slots := s.slots + 1 }

/-- The `int` has not wrapped yet. -/
theorem index_eq {v : ℕ} (hv : v ≤ INT_MAX) (n : ℕ) : index v n = some (v % n) := by
  have hlt : v < 2 ^ 31 := Nat.lt_of_le_of_lt hv (by decide)
  have hmod : (Int32.ofNat v).toInt.tmod n = ((v % n : ℕ) : ℤ) := by
    rw [Int32.toInt_ofNat_of_lt hlt, Int.ofNat_tmod]
  rw [index, hmod, if_neg (not_lt.mpr (Int.natCast_nonneg _)), Int.toNat_natCast]

end Sbuf

/-- A buffer of `n` slots and its threads. -/
def sbuf (ι : Type*) [DecidableEq ι] (n : ℕ) : System (Sbuf ι) (ι × SbufCall) Unit where
  init s := s = .sbuf_init n
  legal _ _ := True
  exec s a := (s.step a.1 a.2).map fun s' => ((), s')

/-! ## The invariant -/

/-- What a thread has in hand of `rear` and `front`. -/
def SbufPc.Knows (rear front : ℕ) : SbufPc → Prop
  | .insertRear _ v => v = rear
  | .insertStore _ v => v = rear
  | .removeFront v => v = front
  | .removeLoad v => v = front
  | _ => True

theorem SbufPc.knows_of_not_inMutex {p : SbufPc} (hp : ¬p.inMutex = true) (rear front : ℕ) :
    p.Knows rear front := by
  cases p with
  | insertRead | insertRear | insertStore | insertUnlock | removeRead | removeFront | removeLoad | removeUnlock =>
    exact absurd rfl hp
  | _ => trivial

theorem SbufPc.inMutex_of_atStore {p : SbufPc} (hp : p.atStore = true) : p.inMutex = true := by
  cases p with
  | insertStore => rfl
  | _ => cases hp

theorem SbufPc.inMutex_of_atLoad {p : SbufPc} (hp : p.atLoad = true) : p.inMutex = true := by
  cases p with
  | removeLoad => rfl
  | _ => cases hp

theorem SbufPc.of_waits {p : SbufPc} (hp : p.waits = true) :
    p.inMutex = false ∧ p.reserved = false ∧ p.announced = false := by
  cases p with
  | idle | insertSlots | removeItems => exact ⟨rfl, rfl, rfl⟩
  | _ => cases hp

section Safety

variable {ι : Type*} [Fintype ι] {s s' : Sbuf ι} {n : ℕ}

/-- The buffer holds, in this order, the items that have been inserted and not removed. -/
def Sbuf.Holds (s : Sbuf ι) (q : List Int32) : Prop :=
  s.inserted.map Prod.snd = s.removed.map Prod.snd ++ q ∧ Window s.buf s.n (s.removed.length + 1) q

structure SbufInv (n : ℕ) (s : Sbuf ι) : Prop where
  size : s.n = n
  mutex : s.mutex + count SbufPc.inMutex s.pc = 1
  slots : s.inserted.length + s.slots + count SbufPc.reserved s.pc = s.removed.length + n
  items : s.inserted.length = s.removed.length + s.items + count SbufPc.announced s.pc
  rear : s.rear = s.inserted.length + count SbufPc.atStore s.pc
  front : s.front = s.removed.length + count SbufPc.atLoad s.pc
  knows : ∀ i, (s.pc i).Knows s.rear s.front
  holds : s.inserted.length ≤ INT_MAX → ∃ q, s.Holds q

namespace SbufInv

theorem init (n : ℕ) : SbufInv n (Sbuf.sbuf_init (ι := ι) n) := by
  have hzero : ∀ p : SbufPc → Bool, p .idle = false →
      count p (Sbuf.sbuf_init (ι := ι) n).pc = 0 := fun p hp => count_eq_zero.mpr fun _ => hp
  refine ⟨rfl, ?_, ?_, ?_, ?_, ?_, fun _ => trivial, fun _ => ⟨[], rfl, Window.nil _ _ _⟩⟩
  · rw [hzero _ rfl]
    rfl
  · rw [hzero _ rfl]
    exact Nat.add_zero _
  · rw [hzero _ rfl]
    rfl
  · rw [hzero _ rfl]
    rfl
  · rw [hzero _ rfl]
    rfl

theorem unique (h : SbufInv n s) {i j : ι} (hi : (s.pc i).inMutex = true) (hj : (s.pc j).inMutex = true) :
    i = j := by
  have hm := h.mutex
  exact count_le_one.mp (by omega) i j hi hj

omit [Fintype ι] in
theorem length_eq {q : List Int32} (hq : s.Holds q) : s.inserted.length = s.removed.length + q.length := by
  have hlen := congrArg List.length hq.1
  rwa [List.length_append, List.length_map, List.length_map] at hlen

variable [DecidableEq ι] {i : ι} {p p' : SbufPc}

/-- **One step**, from `p` to `p'`: what the semaphores count goes with the place, and only the holder of `mutex`
changes `rear` and `front`. -/
theorem move (h : SbufInv n s) (hp : s.pc i = p) (hpc : s'.pc = Function.update s.pc i p') (hn : s'.n = s.n)
    (hm : s'.mutex + p'.inMutex.toNat = s.mutex + p.inMutex.toNat)
    (hs : s'.inserted.length + s'.slots + p'.reserved.toNat + s.removed.length =
      s.inserted.length + s.slots + p.reserved.toNat + s'.removed.length)
    (hi : s'.inserted.length + s.removed.length + s.items + p.announced.toNat =
      s.inserted.length + s'.removed.length + s'.items + p'.announced.toNat)
    (hr : s'.rear + s.inserted.length + p.atStore.toNat = s.rear + s'.inserted.length + p'.atStore.toNat)
    (hf : s'.front + s.removed.length + p.atLoad.toNat = s.front + s'.removed.length + p'.atLoad.toNat)
    (hown : (s'.rear = s.rear ∧ s'.front = s.front) ∨ p.inMutex = true) (hk : p'.Knows s'.rear s'.front)
    (hq : s'.inserted.length ≤ INT_MAX → ∃ q, s'.Holds q) : SbufInv n s' := by
  have hcount : ∀ f : SbufPc → Bool, count f s'.pc + (f p).toNat = count f s.pc + (f p').toNat := fun f => by
    rw [hpc, ← hp]
    exact count_update f s.pc i p'
  have h1 := hcount SbufPc.inMutex
  have h2 := hcount SbufPc.reserved
  have h3 := hcount SbufPc.announced
  have h4 := hcount SbufPc.atStore
  have h5 := hcount SbufPc.atLoad
  have hmutex := h.mutex
  have hslots := h.slots
  have hitems := h.items
  have hrear := h.rear
  have hfront := h.front
  refine ⟨hn.trans h.size, by omega, by omega, by omega, by omega, by omega, fun j => ?_, hq⟩
  rw [hpc]
  by_cases hji : j = i
  · rw [hji, Function.update_self]
    exact hk
  · rw [Function.update_of_ne hji]
    by_cases hin : (s.pc j).inMutex = true
    · rcases hown with ⟨h6, h7⟩ | hin'
      · rw [h6, h7]
        exact h.knows j
      · exact absurd (h.unique hin (by rw [hp]; exact hin')) hji
    · exact SbufPc.knows_of_not_inMutex hin _ _

/-- The steps that leave `buf`, `rear` and `front` alone. -/
theorem plain (h : SbufInv n s) (hp : s.pc i = p) {m sl it : ℕ}
    (hm : m + p'.inMutex.toNat = s.mutex + p.inMutex.toNat)
    (hs : sl + p'.reserved.toNat = s.slots + p.reserved.toNat)
    (hi : s.items + p.announced.toNat = it + p'.announced.toNat) (hst : p'.atStore = p.atStore)
    (hld : p'.atLoad = p.atLoad) (hk : p'.Knows s.rear s.front) :
    SbufInv n { s.goto i p' with mutex := m, slots := sl, items := it } := by
  refine h.move hp rfl rfl hm ?_ ?_ ?_ ?_ (Or.inl ⟨rfl, rfl⟩) hk h.holds
  · dsimp only [Sbuf.goto]
    omega
  · dsimp only [Sbuf.goto]
    omega
  · rw [hst]
    rfl
  · rw [hld]
    rfl

omit [DecidableEq ι] in
/-- The number of the item that a thread is about to write. -/
theorem at_store (h : SbufInv n s) {item : Int32} {v : ℕ} (hp : s.pc i = .insertStore item v) :
    v = s.inserted.length + 1 := by
  have hpos : 0 < count SbufPc.atStore s.pc := count_pos i (by rw [hp]; rfl)
  have hle : count SbufPc.atStore s.pc ≤ 1 :=
    count_le_one.mpr fun j k hj hk => h.unique (SbufPc.inMutex_of_atStore hj) (SbufPc.inMutex_of_atStore hk)
  have hk := h.knows i
  rw [hp] at hk
  have hk : v = s.rear := hk
  have hrear := h.rear
  omega

/-- `buf[(++rear)%n] = item`: the thread has a slot, so that the queue is not full. -/
theorem store (h : SbufInv n s) {item : Int32} {v k : ℕ} (hp : s.pc i = .insertStore item v)
    (hk : Sbuf.index v s.n = some k) :
    SbufInv n { s.goto i .insertUnlock with
      buf := Function.update s.buf k item
      inserted := s.inserted ++ [(i, item)] } := by
  have hsize := h.size
  have hslots := h.slots
  have hres : 0 < count SbufPc.reserved s.pc := count_pos i (by rw [hp]; rfl)
  refine h.move hp rfl rfl rfl ?_ ?_ ?_ rfl (Or.inr rfl) trivial fun hmax => ?_
  · simp only [Sbuf.goto, List.length_append, List.length_singleton, SbufPc.reserved, Bool.toNat_true, Bool.toNat_false]
    omega
  · simp only [Sbuf.goto, List.length_append, List.length_singleton, SbufPc.announced, Bool.toNat_true,
      Bool.toNat_false]
    omega
  · simp only [Sbuf.goto, List.length_append, List.length_singleton, SbufPc.atStore, Bool.toNat_true, Bool.toNat_false]
    omega
  · have hv := h.at_store hp
    dsimp only at hmax
    rw [List.length_append, List.length_singleton] at hmax
    obtain ⟨q, hq⟩ := h.holds (Nat.le_of_succ_le hmax)
    have hlen := length_eq hq
    obtain rfl : v % s.n = k := by
      rw [Sbuf.index_eq (hv.trans_le hmax)] at hk
      exact Option.some.inj hk
    refine ⟨q ++ [item], ?_, ?_⟩
    · simp only [Sbuf.goto, List.map_append, List.map_cons, List.map_nil, hq.1, List.append_assoc]
    · dsimp only [Sbuf.goto]
      rw [hv, show s.inserted.length + 1 = s.removed.length + 1 + q.length by omega]
      exact hq.2.push (by omega) item

omit [DecidableEq ι] in
/-- A thread that is about to read `buf` has an item, so that the queue is not empty. -/
theorem at_load (h : SbufInv n s) (hmax : s.inserted.length ≤ INT_MAX) {v : ℕ} (hp : s.pc i = .removeLoad v)
    {q : List Int32} (hq : s.Holds q) :
    ∃ k q', Sbuf.index v s.n = some k ∧ q = s.buf k :: q' ∧ Window s.buf s.n (s.removed.length + 2) q' := by
  have hlen := length_eq hq
  have hitems := h.items
  have hann : 0 < count SbufPc.announced s.pc := count_pos i (by rw [hp]; rfl)
  have hpos : 0 < count SbufPc.atLoad s.pc := count_pos i (by rw [hp]; rfl)
  have hle : count SbufPc.atLoad s.pc ≤ 1 :=
    count_le_one.mpr fun j k hj hk => h.unique (SbufPc.inMutex_of_atLoad hj) (SbufPc.inMutex_of_atLoad hk)
  have hv : v = s.removed.length + 1 := by
    have hk := h.knows i
    rw [hp] at hk
    have hk : v = s.front := hk
    have hfront := h.front
    omega
  cases q with
  | nil =>
    rw [List.length_nil] at hlen
    omega
  | cons a q' =>
    rw [List.length_cons] at hlen
    obtain ⟨ha, hwin⟩ := hq.2.pop
    exact ⟨v % s.n, q', Sbuf.index_eq (by omega) s.n, by rw [hv, ha], hwin⟩

/-- `item = buf[(++front)%n]`. -/
theorem load (h : SbufInv n s) {v k : ℕ} (hp : s.pc i = .removeLoad v) (hk : Sbuf.index v s.n = some k) :
    SbufInv n { s.goto i (.removeUnlock (s.buf k)) with removed := s.removed ++ [(i, s.buf k)] } := by
  refine h.move hp rfl rfl rfl ?_ ?_ rfl ?_ (Or.inr rfl) trivial fun hmax => ?_
  · simp only [Sbuf.goto, List.length_append, List.length_singleton, SbufPc.reserved, Bool.toNat_true, Bool.toNat_false]
    omega
  · simp only [Sbuf.goto, List.length_append, List.length_singleton, SbufPc.announced, Bool.toNat_true,
      Bool.toNat_false]
    omega
  · simp only [Sbuf.goto, List.length_append, List.length_singleton, SbufPc.atLoad, Bool.toNat_true, Bool.toNat_false]
    omega
  · obtain ⟨q, hq⟩ := h.holds hmax
    obtain ⟨l, q', hl, rfl, hwin⟩ := h.at_load hmax hp hq
    obtain rfl : l = k := Option.some.inj (hl.symm.trans hk)
    refine ⟨q', ?_, ?_⟩
    · simp only [Sbuf.goto, List.map_append, List.map_cons, List.map_nil, hq.1, List.append_assoc,
        List.singleton_append]
    · dsimp only [Sbuf.goto]
      rw [List.length_append, List.length_singleton]
      exact hwin

theorem step (h : SbufInv n s) {call : SbufCall} (hs : s.step i call = some s') : SbufInv n s' := by
  rw [Sbuf.step.eq_def] at hs
  cases hp : s.pc i with
  | idle =>
    rw [hp] at hs
    cases call with
    | insert item =>
      obtain rfl := Option.some.inj hs
      exact h.plain hp rfl rfl rfl rfl rfl trivial
    | remove =>
      obtain rfl := Option.some.inj hs
      exact h.plain hp rfl rfl rfl rfl rfl trivial
  | insertSlots item =>
    rw [hp] at hs
    obtain ⟨hpos, hs⟩ := Option.ite_none_right_eq_some.mp hs
    obtain rfl := Option.some.inj hs
    exact h.plain hp rfl (Nat.sub_add_cancel hpos) rfl rfl rfl trivial
  | insertMutex item =>
    rw [hp] at hs
    obtain ⟨hpos, hs⟩ := Option.ite_none_right_eq_some.mp hs
    obtain rfl := Option.some.inj hs
    exact h.plain hp (Nat.sub_add_cancel hpos) rfl rfl rfl rfl trivial
  | insertRead item =>
    rw [hp] at hs
    obtain rfl := Option.some.inj hs
    exact h.plain hp rfl rfl rfl rfl rfl rfl
  | insertRear item v =>
    rw [hp] at hs
    obtain rfl := Option.some.inj hs
    have hv : v = s.rear := by
      have hk := h.knows i
      rwa [hp] at hk
    refine h.move hp rfl rfl rfl rfl rfl ?_ rfl (Or.inr rfl) rfl h.holds
    simp only [Sbuf.goto, SbufPc.atStore, Bool.toNat_true, Bool.toNat_false]
    omega
  | insertStore item v =>
    rw [hp] at hs
    obtain ⟨k, hk, rfl⟩ := Option.map_eq_some_iff.mp hs
    exact h.store hp hk
  | insertUnlock =>
    rw [hp] at hs
    obtain rfl := Option.some.inj hs
    exact h.plain hp rfl rfl rfl rfl rfl trivial
  | insertItems =>
    rw [hp] at hs
    obtain rfl := Option.some.inj hs
    exact h.plain hp rfl rfl rfl rfl rfl trivial
  | removeItems =>
    rw [hp] at hs
    obtain ⟨hpos, hs⟩ := Option.ite_none_right_eq_some.mp hs
    obtain rfl := Option.some.inj hs
    exact h.plain hp rfl rfl (Nat.sub_add_cancel hpos).symm rfl rfl trivial
  | removeMutex =>
    rw [hp] at hs
    obtain ⟨hpos, hs⟩ := Option.ite_none_right_eq_some.mp hs
    obtain rfl := Option.some.inj hs
    exact h.plain hp (Nat.sub_add_cancel hpos) rfl rfl rfl rfl trivial
  | removeRead =>
    rw [hp] at hs
    obtain rfl := Option.some.inj hs
    exact h.plain hp rfl rfl rfl rfl rfl rfl
  | removeFront v =>
    rw [hp] at hs
    obtain rfl := Option.some.inj hs
    have hv : v = s.front := by
      have hk := h.knows i
      rwa [hp] at hk
    refine h.move hp rfl rfl rfl rfl rfl rfl ?_ (Or.inr rfl) rfl h.holds
    simp only [Sbuf.goto, SbufPc.atLoad, Bool.toNat_true, Bool.toNat_false]
    omega
  | removeLoad v =>
    rw [hp] at hs
    obtain ⟨k, hk, rfl⟩ := Option.map_eq_some_iff.mp hs
    exact h.load hp hk
  | removeUnlock item =>
    rw [hp] at hs
    obtain rfl := Option.some.inj hs
    exact h.plain hp rfl rfl rfl rfl rfl trivial
  | removeSlots item =>
    rw [hp] at hs
    obtain rfl := Option.some.inj hs
    exact h.plain hp rfl rfl rfl rfl rfl trivial

/-- Inside of the mutex a thread has a step. -/
theorem runs (h : SbufInv n s) (hrear : s.rear < INT_MAX) (hfront : s.front < INT_MAX)
    (hi : (s.pc i).inMutex = true) (call : SbufCall) : s.step i call ≠ none := by
  rw [Sbuf.step.eq_def]
  have hk := h.knows i
  cases hp : s.pc i with
  | insertStore item v =>
    rw [hp] at hk
    have hv : v < INT_MAX := lt_of_eq_of_lt hk hrear
    dsimp only
    rw [Sbuf.index_eq hv.le]
    exact Option.some_ne_none _
  | removeLoad v =>
    rw [hp] at hk
    have hv : v < INT_MAX := lt_of_eq_of_lt hk hfront
    dsimp only
    rw [Sbuf.index_eq hv.le]
    exact Option.some_ne_none _
  | insertRead | insertRear | insertUnlock | removeRead | removeFront | removeUnlock => exact Option.some_ne_none _
  | _ =>
    rw [hp] at hi
    cases hi

/-- A thread without a step is at the first `P` of its call. -/
theorem waits (h : SbufInv n s) (hrear : s.rear < INT_MAX) (hfront : s.front < INT_MAX)
    (hblocked : ∀ i call, s.pc i ≠ .idle → s.step i call = none) (j : ι) : (s.pc j).waits = true := by
  have hout : ∀ k, (s.pc k).inMutex = false := fun k => by
    refine Bool.eq_false_iff.mpr fun hk => h.runs hrear hfront hk .remove (hblocked k .remove fun hidle => ?_)
    rw [hidle] at hk
    cases hk
  have hmutex := h.mutex
  rw [count_eq_zero.mpr hout, Nat.add_zero] at hmutex
  have hnone := hblocked j .remove
  rw [Sbuf.step.eq_def, hmutex] at hnone
  have hj := hout j
  cases hp : s.pc j with
  | idle | insertSlots | removeItems => rfl
  | insertMutex | insertItems | removeMutex | removeSlots =>
    rw [hp] at hnone
    cases hnone SbufPc.noConfusion
  | _ =>
    rw [hp] at hj
    cases hj

end SbufInv

variable [DecidableEq ι]

theorem sbufInv_reach (h : (sbuf ι n).Reach s) : SbufInv n s := by
  refine System.Reach.induct (S := sbuf ι n) (fun t ht => ?_) (fun t a r t' hI _ he => ?_) h
  · rw [show t = .sbuf_init n from ht]
    exact SbufInv.init n
  · obtain ⟨u, hu, he⟩ := Option.map_eq_some_iff.mp he
    obtain ⟨-, rfl⟩ := Prod.mk.inj he
    exact hI.step hu

/-- **A bounded queue**, in every state that any number of threads reach with no more than `INT_MAX` items: what has
been removed is the beginning of what has been inserted, the rest is at most `n` items, one thread at a time is between
its `P` and its `V` of `mutex`, and an item is only overwritten after it has been removed, as it leaves from the
front. -/
theorem sbuf_fifo (h : (sbuf ι n).Reach s) (hmax : s.inserted.length ≤ INT_MAX) :
    ∃ q, s.inserted.map Prod.snd = s.removed.map Prod.snd ++ q ∧ q.length ≤ n ∧
      s.items ≤ q.length ∧ q.length + s.slots ≤ n ∧ s.mutex ≤ 1 ∧
      (∀ i j, (s.pc i).inMutex = true → (s.pc j).inMutex = true → i = j) ∧
      ∀ i v, s.pc i = .removeLoad v → ∃ k, Sbuf.index v s.n = some k ∧ q.head? = some (s.buf k) := by
  have hI := sbufInv_reach h
  obtain ⟨q, hq⟩ := hI.holds hmax
  have hlen := SbufInv.length_eq hq
  have hslots := hI.slots
  have hitems := hI.items
  have hmutex := hI.mutex
  refine ⟨q, hq.1, by omega, by omega, by omega, by omega, fun i j => hI.unique, fun i v hp => ?_⟩
  obtain ⟨k, q', hk, hq', -⟩ := hI.at_load hmax hp hq
  exact ⟨k, hk, by rw [hq']; rfl⟩

/-- **No deadlock**: where no thread inside a call has a step, they all wait for a slot of a full buffer or for an
item of an empty one, unless a counter has reached its maximum. -/
theorem sbuf_no_deadlock (h : (sbuf ι n).Reach s) (hrear : s.rear < INT_MAX) (hfront : s.front < INT_MAX)
    (hblocked : ∀ i call, s.pc i ≠ .idle → s.step i call = none) (i : ι) (hi : s.pc i ≠ .idle) :
    (∃ item, s.pc i = .insertSlots item) ∧ s.inserted.length = s.removed.length + n ∨
      s.pc i = .removeItems ∧ s.inserted.length = s.removed.length := by
  have hI := sbufInv_reach h
  have hwaits : ∀ j, (s.pc j).waits = true := fun j => hI.waits hrear hfront hblocked j
  have hres : count SbufPc.reserved s.pc = 0 := count_eq_zero.mpr fun j => (SbufPc.of_waits (hwaits j)).2.1
  have hann : count SbufPc.announced s.pc = 0 := count_eq_zero.mpr fun j => (SbufPc.of_waits (hwaits j)).2.2
  have hslots := hI.slots
  have hitems := hI.items
  have hnone := hblocked i .remove hi
  rw [Sbuf.step.eq_def] at hnone
  have hw := hwaits i
  cases hp : s.pc i with
  | idle => exact absurd hp hi
  | insertSlots item =>
    rw [hp] at hnone
    have hzero : ¬0 < s.slots := fun hpos => by
      dsimp only at hnone
      rw [if_pos hpos] at hnone
      cases hnone
    exact Or.inl ⟨⟨item, rfl⟩, by omega⟩
  | removeItems =>
    rw [hp] at hnone
    have hzero : ¬0 < s.items := fun hpos => by
      dsimp only at hnone
      rw [if_pos hpos] at hnone
      cases hnone
    exact Or.inr ⟨rfl, by omega⟩
  | _ =>
    rw [hp] at hw
    cases hw

end Safety

/-- A buffer of one slot: thread `false` inserts 7 and waits with 8, while thread `true` is about to read 7. -/
def sampleSteps : List (Bool × SbufCall) :=
  List.replicate 8 (false, .insert 7) ++ [(false, .insert 8)] ++ List.replicate 5 (true, .remove)

theorem sbuf_fifo_sample : ∃ s k, (sbuf Bool 1).after (.sbuf_init 1) sampleSteps = some s ∧
    s.pc true = .removeLoad 1 ∧ Sbuf.index 1 s.n = some k ∧ s.buf k = 7 ∧ s.slots = 0 := by
  have hrun : ((sbuf Bool 1).after (.sbuf_init 1) sampleSteps).any (fun s =>
      s.pc true = .removeLoad 1 ∧ s.inserted = [(false, 7)] ∧ s.removed = []) = true := rfl
  obtain ⟨s, hs, hreach, hpc, hins, hrem⟩ := System.Reach.of_after (fun _ _ _ => trivial) rfl hrun
  obtain ⟨q, hq, -, -, hslots, -, -, hhead⟩ := sbuf_fifo hreach (by rw [hins]; decide)
  obtain ⟨k, hk, hhead⟩ := hhead true 1 hpc
  rw [hins, hrem] at hq
  obtain rfl : [7] = q := hq
  rw [List.length_singleton] at hslots
  exact ⟨s, k, hs, hpc, hk, (Option.some.inj hhead).symm, by omega⟩

/-- The same buffer while it is full and thread `true` is outside of the calls. -/
theorem sbuf_no_deadlock_sample : ∃ s, (sbuf Bool 1).after (.sbuf_init 1) (sampleSteps.take 9) = some s ∧
    s.inserted.length = s.removed.length + 1 := by
  have hrun : ((sbuf Bool 1).after (.sbuf_init 1) (sampleSteps.take 9)).any (fun s =>
      s.pc false = .insertSlots 8 ∧ s.pc true = .idle ∧ s.slots = 0 ∧ s.rear = 1 ∧ s.front = 0) = true := rfl
  obtain ⟨s, hs, hreach, hpc0, hpc1, hslots, hrear, hfront⟩ :=
    System.Reach.of_after (fun _ _ _ => trivial) rfl hrun
  have hblocked : ∀ i call, s.pc i ≠ .idle → s.step i call = none := fun i call hi => by
    cases i with
    | false =>
      rw [Sbuf.step.eq_def, hpc0, hslots]
      rfl
    | true => exact absurd hpc1 hi
  rcases sbuf_no_deadlock hreach (by rw [hrear]; decide) (by rw [hfront]; decide) hblocked false
    (by rw [hpc0]; exact SbufPc.noConfusion) with h | h
  · exact ⟨s, hs, h.2⟩
  · rw [hpc0] at h
    cases h.1

end Csapp.Threads
