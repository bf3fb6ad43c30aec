import Csapp.Lib.Count
import Csapp.Lib.Run

/-!
# Proxy.RwLock — the readers-writer lock

Any number of threads take the lock for reading or for writing, again and again.  A step of a thread is one
semaphore operation, or one read or one write of `readcnt`.  The readers hold `w` together: `owning` tells
which threads count for this, from where a thread has found that another reader has `w` or has taken it, to
where it has found that another reader keeps it or gives it back.
-/

namespace Csapp.Proxy

open Csapp.Lib

/-- Where a thread stands; the operation named is the next one. -/
inductive Pc
  | idle
  | rdlockP
  | rdlockRead
  | rdlockWrite (v : ℤ)
  | rdlockTest
  | rdlockPw
  | rdlockV
  | reading
  | rdunlockP
  | rdunlockRead
  | rdunlockWrite (v : ℤ)
  | rdunlockTest
  | rdunlockVw
  | rdunlockV
  | wrlockP
  | writing
  deriving DecidableEq

namespace Pc

/-- The thread holds `mutex`. -/
def inMutex : Pc → Bool
  | rdlockRead | rdlockWrite _ | rdlockTest | rdlockPw | rdlockV => true
  | rdunlockRead | rdunlockWrite _ | rdunlockTest | rdunlockVw | rdunlockV => true
  | _ => false

/-- The next operation reads or writes `readcnt`. -/
def accesses : Pc → Bool
  | rdlockRead | rdlockWrite _ | rdlockTest => true
  | rdunlockRead | rdunlockWrite _ | rdunlockTest => true
  | _ => false

/-- The thread has incremented `readcnt` and not decremented it since. -/
def counted : Pc → Bool
  | rdlockTest | rdlockPw | rdlockV | reading | rdunlockP | rdunlockRead | rdunlockWrite _ => true
  | _ => false

/-- The thread is one of the readers that hold `w`. -/
def owning : Pc → Bool
  | rdlockV | reading | rdunlockP | rdunlockRead | rdunlockWrite _ | rdunlockTest | rdunlockVw => true
  | _ => false

def isWriting : Pc → Bool
  | writing => true
  | _ => false

end Pc

/-- The threads, the two semaphores and the counter. -/
structure RwLock (ι : Type*) where
  pc : ι → Pc
  mutex : ℕ
  w : ℕ
  readcnt : ℤ

namespace RwLock

variable {ι : Type*} [DecidableEq ι]

def rwlock_init : RwLock ι := ⟨fun _ => .idle, 1, 1, 0⟩

def goto (s : RwLock ι) (i : ι) (pc : Pc) : RwLock ι := { s with pc := Function.update s.pc i pc }

/-- One operation of thread `i`; `reader` tells what a thread that is idle begins with.  `P` waits while its
semaphore is 0. -/
def step (s : RwLock ι) (i : ι) (reader : Bool) : Option (RwLock ι) :=
  match s.pc i with
  | .idle => some (s.goto i (if reader then .rdlockP else .wrlockP))
  -- rwlock_rdlock
  | .rdlockP => if 0 < s.mutex then some { s.goto i .rdlockRead with mutex := s.mutex - 1 } else none
  | .rdlockRead => some (s.goto i (.rdlockWrite s.readcnt))
  | .rdlockWrite v => some { s.goto i .rdlockTest with readcnt := v + 1 }
  | .rdlockTest => some (s.goto i (if s.readcnt = 1 then .rdlockPw else .rdlockV))
  | .rdlockPw => if 0 < s.w then some { s.goto i .rdlockV with w := s.w - 1 } else none
  | .rdlockV => some { s.goto i .reading with mutex := s.mutex + 1 }
  -- rwlock_rdunlock
  | .reading => some (s.goto i .rdunlockP)
  | .rdunlockP => if 0 < s.mutex then some { s.goto i .rdunlockRead with mutex := s.mutex - 1 } else none
  | .rdunlockRead => some (s.goto i (.rdunlockWrite s.readcnt))
  | .rdunlockWrite v => some { s.goto i .rdunlockTest with readcnt := v - 1 }
  | .rdunlockTest => some (s.goto i (if s.readcnt = 0 then .rdunlockVw else .rdunlockV))
  | .rdunlockVw => some { s.goto i .rdunlockV with w := s.w + 1 }
  | .rdunlockV => some { s.goto i .idle with mutex := s.mutex + 1 }
  -- rwlock_wrlock, rwlock_wrunlock
  | .wrlockP => if 0 < s.w then some { s.goto i .writing with w := s.w - 1 } else none
  | .writing => some { s.goto i .idle with w := s.w + 1 }

end RwLock

def rwlock (ι : Type*) [DecidableEq ι] : System (RwLock ι) (ι × Bool) Unit where
  init s := s = .rwlock_init
  legal _ _ := True
  exec s a := (s.step a.1 a.2).map fun s' => ((), s')

/-! ## The invariant -/

section Safety

variable {ι : Type*} [Fintype ι] {s s' : RwLock ι}

structure RwInv (s : RwLock ι) : Prop where
  mutex : s.mutex + count Pc.inMutex s.pc = 1
  w : s.w + count Pc.isWriting s.pc + min (count Pc.owning s.pc) 1 = 1
  readcnt : s.readcnt = count Pc.counted s.pc
  lock : ∀ i v, s.pc i = .rdlockWrite v → v = s.readcnt
  unlock : ∀ i v, s.pc i = .rdunlockWrite v → v = s.readcnt
  last : ∀ i, s.pc i = .rdunlockVw → s.readcnt = 0

/-- What a thread has in hand of the counter, at the places between its reads and writes. -/
def Pc.Knows (r : ℤ) : Pc → Prop
  | .rdlockWrite v => v = r
  | .rdunlockWrite v => v = r
  | .rdunlockVw => r = 0
  | _ => True

theorem Pc.knows_of_not_inMutex {p : Pc} (hp : ¬ p.inMutex = true) (r : ℤ) : p.Knows r := by
  cases p with
  | idle | rdlockP | reading | rdunlockP | wrlockP | writing => trivial
  | rdlockRead | rdlockTest | rdlockPw | rdlockV | rdunlockRead | rdunlockTest | rdunlockVw | rdunlockV =>
    exact absurd rfl hp
  | rdlockWrite v | rdunlockWrite v => exact absurd rfl hp

namespace RwInv

theorem knows (h : RwInv s) (i : ι) : (s.pc i).Knows s.readcnt := by
  cases hp : s.pc i with
  | rdlockWrite v => exact h.lock i v hp
  | rdunlockWrite v => exact h.unlock i v hp
  | rdunlockVw => exact h.last i hp
  | _ => trivial

theorem unique (h : RwInv s) {i j : ι} (hi : (s.pc i).inMutex = true) (hj : (s.pc j).inMutex = true) : i = j := by
  have hm := h.mutex
  exact count_le_one.mp (by omega) i j hi hj

theorem init : RwInv (RwLock.rwlock_init (ι := ι)) where
  mutex := by rw [RwLock.rwlock_init, count_eq_zero.mpr fun _ => rfl]
  w := by rw [RwLock.rwlock_init, count_eq_zero.mpr fun _ => rfl, count_eq_zero.mpr fun _ => rfl]; rfl
  readcnt := by rw [RwLock.rwlock_init, count_eq_zero.mpr fun _ => rfl]; rfl
  lock _ _ h := by cases h
  unlock _ _ h := by cases h
  last _ h := by cases h

variable [DecidableEq ι] {i : ι} {p p' : Pc}

/-- The holder of `mutex` is the only thread for which the counter and `w` may disagree. -/
theorem counted_eq (h : RwInv s) (hi : (s.pc i).inMutex = true) :
    count Pc.counted s.pc + (s.pc i).owning.toNat = count Pc.owning s.pc + (s.pc i).counted.toNat := by
  refine count_congr i fun j hj => ?_
  have hout : ¬ (s.pc j).inMutex = true := fun hin => hj (h.unique hin hi)
  cases hp : s.pc j with
  | idle | rdlockP | reading | rdunlockP | wrlockP | writing => rfl
  | rdlockRead | rdlockTest | rdlockPw | rdlockV | rdunlockRead | rdunlockTest | rdunlockVw | rdunlockV =>
    rw [hp] at hout
    exact absurd rfl hout
  | rdlockWrite v | rdunlockWrite v =>
    rw [hp] at hout
    exact absurd rfl hout

/-- **One step**, from `p` to `p'`: the semaphores and the counter change with the places, and only the
holder of `mutex` changes the counter. -/
theorem move (h : RwInv s) {m w : ℕ} {r : ℤ} (hp : s.pc i = p)
    (hm : m + p'.inMutex.toNat = s.mutex + p.inMutex.toNat)
    (hr : r + p.counted.toNat = s.readcnt + p'.counted.toNat)
    (hw : w + count Pc.isWriting (Function.update s.pc i p') +
      min (count Pc.owning (Function.update s.pc i p')) 1 = 1)
    (hrm : r = s.readcnt ∨ p.inMutex = true) (hpc : p'.Knows r) :
    RwInv ⟨Function.update s.pc i p', m, w, r⟩ := by
  have h1 := count_update Pc.inMutex s.pc i p'
  have h2 := count_update Pc.counted s.pc i p'
  have h3 := h.mutex
  have h4 := h.readcnt
  rw [hp] at h1 h2
  -- another thread that holds `mutex` sees no change of the counter
  have hknows : ∀ j, (Function.update s.pc i p' j).Knows r := by
    intro j
    by_cases hji : j = i
    · rw [hji, Function.update_self]
      exact hpc
    · rw [Function.update_of_ne hji]
      by_cases hin : (s.pc j).inMutex = true
      · rcases hrm with rfl | hrm
        · exact h.knows j
        · exact absurd (h.unique hin (by rw [hp]; exact hrm)) hji
      · exact Pc.knows_of_not_inMutex hin r
  refine ⟨by dsimp only; omega, hw, by dsimp only; omega, fun j v hj => ?_, fun j v hj => ?_, fun j hj => ?_⟩
  · have hj' := hknows j
    rwa [show Function.update s.pc i p' j = .rdlockWrite v from hj] at hj'
  · have hj' := hknows j
    rwa [show Function.update s.pc i p' j = .rdunlockWrite v from hj] at hj'
  · have hj' := hknows j
    rwa [show Function.update s.pc i p' j = .rdunlockVw from hj] at hj'

/-- Steps that do not concern `w`. -/
theorem w_same (h : RwInv s) (hp : s.pc i = p) (hown : p'.owning = p.owning) (hwr : p'.isWriting = p.isWriting) :
    s.w + count Pc.isWriting (Function.update s.pc i p') +
      min (count Pc.owning (Function.update s.pc i p')) 1 = 1 := by
  have h1 := count_update Pc.isWriting s.pc i p'
  have h2 := count_update Pc.owning s.pc i p'
  have h3 := h.w
  rw [hp, hwr] at h1
  rw [hp, hown] at h2
  rw [show count Pc.isWriting (Function.update s.pc i p') = count Pc.isWriting s.pc by omega,
    show count Pc.owning (Function.update s.pc i p') = count Pc.owning s.pc by omega, h3]

/-- `readcnt == 1` in `rwlock_rdlock`. -/
theorem rdlockTest (h : RwInv s) (hp : s.pc i = .rdlockTest) :
    RwInv (s.goto i (if s.readcnt = 1 then .rdlockPw else .rdlockV)) := by
  by_cases hr : s.readcnt = 1
  · rw [if_pos hr]
    exact h.move hp rfl rfl (h.w_same hp rfl rfl) (Or.inl rfl) trivial
  · -- another reader has `w`
    rw [if_neg hr]
    have h1 := h.counted_eq (i := i) (by rw [hp]; rfl)
    have h2 : 0 < count Pc.counted s.pc := count_pos i (by rw [hp]; rfl)
    have h3 := h.readcnt
    have h4 := count_update Pc.isWriting s.pc i .rdlockV
    have h5 := count_update Pc.owning s.pc i .rdlockV
    have h6 := h.w
    rw [hp] at h1 h4 h5
    simp only [Pc.owning, Pc.counted, Pc.isWriting, Bool.toNat_true, Bool.toNat_false] at h1 h4 h5
    exact h.move hp rfl rfl (by omega) (Or.inl rfl) trivial

/-- `readcnt == 0` in `rwlock_rdunlock`. -/
theorem rdunlockTest (h : RwInv s) (hp : s.pc i = .rdunlockTest) :
    RwInv (s.goto i (if s.readcnt = 0 then .rdunlockVw else .rdunlockV)) := by
  by_cases hr : s.readcnt = 0
  · rw [if_pos hr]
    exact h.move hp rfl rfl (h.w_same hp rfl rfl) (Or.inl rfl) hr
  · -- another reader keeps `w`
    rw [if_neg hr]
    have h1 := h.counted_eq (i := i) (by rw [hp]; rfl)
    have h3 := h.readcnt
    have h4 := count_update Pc.isWriting s.pc i .rdunlockV
    have h5 := count_update Pc.owning s.pc i .rdunlockV
    have h6 := h.w
    rw [hp] at h1 h4 h5
    simp only [Pc.owning, Pc.counted, Pc.isWriting, Bool.toNat_true, Bool.toNat_false] at h1 h4 h5
    exact h.move hp rfl rfl (by omega) (Or.inl rfl) trivial

/-- The first reader takes `w`, or a writer. -/
theorem takeW (h : RwInv s) (hw : 0 < s.w) (hp : s.pc i = p) (hmutex : p'.inMutex = p.inMutex)
    (hcounted : p'.counted = p.counted) (hold : p.owning = false ∧ p.isWriting = false)
    (hnew : (p'.owning = true ∧ p'.isWriting = false) ∨ (p'.owning = false ∧ p'.isWriting = true))
    (hpc : p'.Knows s.readcnt) : RwInv { s.goto i p' with w := s.w - 1 } := by
  have h4 := count_update Pc.isWriting s.pc i p'
  have h5 := count_update Pc.owning s.pc i p'
  have h6 := h.w
  rw [hp, hold.2, Bool.toNat_false, Nat.add_zero] at h4
  rw [hp, hold.1, Bool.toNat_false, Nat.add_zero] at h5
  refine h.move hp (congrArg (fun b => s.mutex + Bool.toNat b) hmutex)
    (congrArg (fun b => s.readcnt + (Bool.toNat b : ℤ)) hcounted.symm) ?_ (Or.inl rfl) hpc
  rcases hnew with ⟨h7, h8⟩ | ⟨h7, h8⟩
  · rw [h8, Bool.toNat_false] at h4
    rw [h7, Bool.toNat_true] at h5
    omega
  · rw [h8, Bool.toNat_true] at h4
    rw [h7, Bool.toNat_false] at h5
    omega

/-- The last reader gives `w` back. -/
theorem rdunlockVw (h : RwInv s) (hp : s.pc i = .rdunlockVw) :
    RwInv { s.goto i .rdunlockV with w := s.w + 1 } := by
  have h1 := h.counted_eq (i := i) (by rw [hp]; rfl)
  have h2 := h.last i hp
  have h3 := h.readcnt
  have h4 := count_update Pc.isWriting s.pc i .rdunlockV
  have h5 := count_update Pc.owning s.pc i .rdunlockV
  have h6 := h.w
  rw [hp] at h1 h4 h5
  simp only [Pc.owning, Pc.counted, Pc.isWriting, Bool.toNat_true, Bool.toNat_false] at h1 h4 h5
  exact h.move hp rfl rfl (by omega) (Or.inl rfl) trivial

/-- A writer gives `w` back. -/
theorem wrunlock (h : RwInv s) (hp : s.pc i = .writing) : RwInv { s.goto i .idle with w := s.w + 1 } := by
  have h2 : 0 < count Pc.isWriting s.pc := count_pos i (by rw [hp]; rfl)
  have h4 := count_update Pc.isWriting s.pc i .idle
  have h5 := count_update Pc.owning s.pc i .idle
  have h6 := h.w
  rw [hp] at h4 h5
  simp only [Pc.owning, Pc.isWriting, Bool.toNat_true, Bool.toNat_false] at h4 h5
  exact h.move hp rfl rfl (by omega) (Or.inl rfl) trivial

/-- The places at which a thread has nothing in hand. -/
theorem plain (h : RwInv s) {m : ℕ} (hp : s.pc i = p) (hm : m + p'.inMutex.toNat = s.mutex + p.inMutex.toNat)
    (hcounted : p'.counted = p.counted) (hown : p'.owning = p.owning) (hwr : p'.isWriting = p.isWriting)
    (hpc : p'.Knows s.readcnt) : RwInv { s.goto i p' with mutex := m } :=
  h.move hp hm (congrArg (fun b => s.readcnt + (Bool.toNat b : ℤ)) hcounted.symm) (h.w_same hp hown hwr)
    (Or.inl rfl) hpc

theorem step (h : RwInv s) {reader : Bool} (hs : s.step i reader = some s') : RwInv s' := by
  rw [RwLock.step] at hs
  cases hp : s.pc i with
  | idle =>
    rw [hp] at hs
    obtain rfl := Option.some.inj hs
    cases reader with
    | true => exact h.plain hp rfl rfl rfl rfl trivial
    | false => exact h.plain hp rfl rfl rfl rfl trivial
  | rdlockP =>
    rw [hp] at hs
    obtain ⟨hm, hs⟩ := Option.ite_none_right_eq_some.mp hs
    obtain rfl := Option.some.inj hs
    exact h.plain hp (Nat.sub_add_cancel hm) rfl rfl rfl trivial
  | rdlockRead =>
    rw [hp] at hs
    obtain rfl := Option.some.inj hs
    exact h.plain hp rfl rfl rfl rfl rfl
  | rdlockWrite v =>
    rw [hp] at hs
    obtain rfl := Option.some.inj hs
    have hv := h.lock i v hp
    refine h.move hp rfl ?_ (h.w_same hp rfl rfl) (Or.inr rfl) trivial
    rw [hv]
    exact Int.add_zero _
  | rdlockTest =>
    rw [hp] at hs
    obtain rfl := Option.some.inj hs
    exact h.rdlockTest hp
  | rdlockPw =>
    rw [hp] at hs
    obtain ⟨hw, hs⟩ := Option.ite_none_right_eq_some.mp hs
    obtain rfl := Option.some.inj hs
    exact h.takeW hw hp rfl rfl ⟨rfl, rfl⟩ (Or.inl ⟨rfl, rfl⟩) trivial
  | rdlockV =>
    rw [hp] at hs
    obtain rfl := Option.some.inj hs
    exact h.plain hp rfl rfl rfl rfl trivial
  | reading =>
    rw [hp] at hs
    obtain rfl := Option.some.inj hs
    exact h.plain hp rfl rfl rfl rfl trivial
  | rdunlockP =>
    rw [hp] at hs
    obtain ⟨hm, hs⟩ := Option.ite_none_right_eq_some.mp hs
    obtain rfl := Option.some.inj hs
    exact h.plain hp (Nat.sub_add_cancel hm) rfl rfl rfl trivial
  | rdunlockRead =>
    rw [hp] at hs
    obtain rfl := Option.some.inj hs
    exact h.plain hp rfl rfl rfl rfl rfl
  | rdunlockWrite v =>
    rw [hp] at hs
    obtain rfl := Option.some.inj hs
    have hv := h.unlock i v hp
    refine h.move hp rfl ?_ (h.w_same hp rfl rfl) (Or.inr rfl) trivial
    rw [hv]
    exact (Int.sub_add_cancel _ _).trans (Int.add_zero _).symm
  | rdunlockTest =>
    rw [hp] at hs
    obtain rfl := Option.some.inj hs
    exact h.rdunlockTest hp
  | rdunlockVw =>
    rw [hp] at hs
    obtain rfl := Option.some.inj hs
    exact h.rdunlockVw hp
  | rdunlockV =>
    rw [hp] at hs
    obtain rfl := Option.some.inj hs
    exact h.plain hp rfl rfl rfl rfl trivial
  | wrlockP =>
    rw [hp] at hs
    obtain ⟨hw, hs⟩ := Option.ite_none_right_eq_some.mp hs
    obtain rfl := Option.some.inj hs
    exact h.takeW hw hp rfl rfl ⟨rfl, rfl⟩ (Or.inr ⟨rfl, rfl⟩) trivial
  | writing =>
    rw [hp] at hs
    obtain rfl := Option.some.inj hs
    exact h.wrunlock hp

end RwInv

/-! ## Runs -/

variable [DecidableEq ι]

theorem rwInv_reach (h : (rwlock ι).Reach s) : RwInv s := by
  refine System.Reach.induct (S := rwlock ι) (fun t ht => ?_) (fun t a r t' hI _ he => ?_) h
  · rw [show t = .rwlock_init from ht]
    exact RwInv.init
  · obtain ⟨u, hu, he⟩ := Option.map_eq_some_iff.mp he
    obtain ⟨-, rfl⟩ := Prod.mk.inj he
    exact hI.step hu

/-- **Readers and writers**, in every state that any number of threads reach: a thread in its writing
section excludes all readers and all other writers; `readcnt` is the number of threads between its increment
and its decrement; it is read and written only by the one thread that holds `mutex`; and the semaphores are
at most 1. -/
theorem rwlock_safe (h : (rwlock ι).Reach s) :
    (∀ i j, s.pc i = .writing → s.pc j = .reading ∨ s.pc j = .writing → j = i) ∧
      s.readcnt = count Pc.counted s.pc ∧
      (∀ i, (s.pc i).accesses = true → s.mutex = 0 ∧ (s.pc i).inMutex = true ∧
        ∀ j, (s.pc j).inMutex = true → j = i) ∧
      s.mutex ≤ 1 ∧ s.w ≤ 1 := by
  have hI := rwInv_reach h
  have hmutex := hI.mutex
  have hw := hI.w
  refine ⟨fun i j hi hj => ?_, hI.readcnt, fun i hi => ?_, by omega, by omega⟩
  · have h1 : 0 < count Pc.isWriting s.pc := count_pos i (by rw [hi]; rfl)
    rcases hj with hj | hj
    · have h2 : 0 < count Pc.owning s.pc := count_pos j (by rw [hj]; rfl)
      omega
    · have h2 : count Pc.isWriting s.pc ≤ 1 := by omega
      exact count_le_one.mp h2 j i (by rw [hj]; rfl) (by rw [hi]; rfl)
  · have hin : (s.pc i).inMutex = true := by
      cases hp : s.pc i with
      | rdlockRead | rdlockTest | rdunlockRead | rdunlockTest => rfl
      | rdlockWrite v | rdunlockWrite v => rfl
      | idle | rdlockP | rdlockPw | rdlockV | reading | rdunlockP | rdunlockVw | rdunlockV | wrlockP
      | writing =>
        rw [hp] at hi
        cases hi
    have h1 : 0 < count Pc.inMutex s.pc := count_pos i hin
    exact ⟨by omega, hin, fun j hj => hI.unique hj hin⟩

end Safety

/-- Thread 0 writes; thread 1, the first reader, waits for `w` and holds `mutex`. -/
def sampleSteps : List (Fin 2 × Bool) :=
  [(0, false), (0, false), (1, true), (1, true), (1, true), (1, true), (1, true)]

theorem rwlock_safe_sample : ∃ s, (rwlock (Fin 2)).after .rwlock_init sampleSteps = some s ∧
    s.pc 0 = .writing ∧ s.pc 1 ≠ .reading ∧ s.readcnt = count Pc.counted s.pc := by
  have hrun : ((rwlock (Fin 2)).after .rwlock_init sampleSteps).any (fun s => s.pc 0 = .writing) = true := rfl
  obtain ⟨s, hs, hreach, hpc⟩ := System.Reach.of_after (fun _ _ _ => trivial) rfl hrun
  obtain ⟨hexcl, hcount, -⟩ := rwlock_safe hreach
  exact ⟨s, hs, hpc, fun hr => absurd (hexcl 0 1 hpc (Or.inl hr)) (by decide), hcount⟩

end Csapp.Proxy
