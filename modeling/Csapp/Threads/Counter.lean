import Csapp.Lib.Channel
import Csapp.Lib.Count
import Csapp.Lib.Dispense
import Csapp.Lib.Run

/-!
# Threads.Counter — the counter services

Any number of goroutines call `getNext`, again and again, on a service with a mutex, with an atomic counter or with a
channel that one more goroutine fills.  `log` has the calls in the order in which they take effect, `got` what they
have returned.
-/

namespace Csapp.Threads

open Csapp.Lib

/-- The value of the call with `k` calls before it. -/
def nextValue (k : ℕ) : UInt64 := .ofNat (k + 1)

theorem nextValue_succ (k : ℕ) : nextValue k + 1 = nextValue (k + 1) := (UInt64.ofNat_add (k + 1) 1).symm

theorem nextValue_lt {k l n : ℕ} (hkl : k < l) (hl : l < n) (hn : n < 2 ^ 64) : nextValue k < nextValue l := by
  rw [UInt64.lt_iff_toNat_lt, nextValue, nextValue, UInt64.toNat_ofNat_of_lt', UInt64.toNat_ofNat_of_lt']
  · omega
  · rw [UInt64.size]
    omega
  · rw [UInt64.size]
    omega

/-- **A counter**, as its callers see it: the calls take effect one after the other with the values 1, 2, 3, …, which
wrap around; before they do, each goroutine sees them go up and no two goroutines get the same. -/
structure Counts {ι : Type*} [DecidableEq ι] (log : List (ι × UInt64)) (got hand : ι → List UInt64) : Prop where
  dispensed : Dispensed nextValue log fun i => got i ++ hand i
  ascending : log.length < 2 ^ 64 → ∀ i, (got i).Pairwise (· < ·)
  distinct : log.length < 2 ^ 64 → ∀ i j v, v ∈ got i → v ∈ got j → i = j

theorem Counts.of_dispensed {ι : Type*} [DecidableEq ι] {log : List (ι × UInt64)} {got hand : ι → List UInt64}
    (h : Dispensed nextValue log fun i => got i ++ hand i) : Counts log got hand := by
  refine ⟨h, fun hlt i => ?_, fun hlt i j v hi hj => ?_⟩
  · exact (List.pairwise_append.mp (h.pairwise (fun k l hkl hl => nextValue_lt hkl hl hlt) i)).1
  · exact h.unique (fun k l hkl hl => UInt64.ne_of_lt (nextValue_lt hkl hl hlt)) (List.mem_append_left _ hi)
      (List.mem_append_left _ hj)

/-! ## MutexCounterService -/

inductive MutexPc
  | idle
  | lock
  | read
  | write (v : UInt64)
  | result
  | unlock (v : UInt64)
  deriving DecidableEq

namespace MutexPc

def locked : MutexPc → Bool
  | idle | lock => false
  | read | write _ | result | unlock _ => true

/-- The counter is ahead of the calls that have taken effect. -/
def ahead : MutexPc → Bool
  | result => true
  | _ => false

def hand : MutexPc → List UInt64
  | unlock v => [v]
  | _ => []

end MutexPc

structure MutexCounterService (ι : Type*) where
  pc : ι → MutexPc
  mu : Bool
  counter : UInt64
  log : List (ι × UInt64)
  got : ι → List UInt64

namespace MutexCounterService

variable {ι : Type*} [DecidableEq ι]

def new : MutexCounterService ι := ⟨fun _ => .idle, false, 0, [], fun _ => []⟩

def goto (s : MutexCounterService ι) (i : ι) (pc : MutexPc) : MutexCounterService ι :=
  { s with pc := Function.update s.pc i pc }

/-- One operation of goroutine `i` in `getNext`. -/
def getNext (s : MutexCounterService ι) (i : ι) : Option (MutexCounterService ι) :=
  match s.pc i with
  | .idle => some (s.goto i .lock)
  | .lock => if s.mu then none else some { s.goto i .read with mu := true }
  | .read => some (s.goto i (.write s.counter))
  | .write v => some { s.goto i .result with counter := v + 1 }
  | .result => some { s.goto i (.unlock s.counter) with log := s.log ++ [(i, s.counter)] }
  | .unlock v => some { s.goto i .idle with mu := false, got := Function.update s.got i (s.got i ++ [v]) }

end MutexCounterService

def mutexCounter (ι : Type*) [DecidableEq ι] : System (MutexCounterService ι) ι Unit where
  init s := s = .new
  legal _ _ := True
  exec s i := (s.getNext i).map fun s' => ((), s')

section Mutex

variable {ι : Type*} [Fintype ι] [DecidableEq ι] {s s' : MutexCounterService ι} {i j : ι} {p p' : MutexPc}

structure MutexInv (s : MutexCounterService ι) : Prop where
  mu : s.mu.toNat = count MutexPc.locked s.pc
  counter : s.counter = .ofNat (s.log.length + count MutexPc.ahead s.pc)
  knows : ∀ i v, s.pc i = .write v → v = s.counter
  dispensed : Dispensed nextValue s.log fun i => s.got i ++ (s.pc i).hand

namespace MutexInv

theorem unique (h : MutexInv s) (hi : (s.pc i).locked = true) (hj : (s.pc j).locked = true) : i = j := by
  have hle := Bool.toNat_le s.mu
  rw [h.mu] at hle
  exact count_le_one.mp hle i j hi hj

/-- The holder of the mutex is the only one who has read the counter. -/
theorem knows_of_move (h : MutexInv s) (hp : s.pc i = p) (hpc : s'.pc = Function.update s.pc i p')
    (hown : s'.counter = s.counter ∨ p.locked = true) (hp' : ∀ v, p' = .write v → v = s'.counter) (j : ι)
    (v : UInt64) (hj : s'.pc j = .write v) : v = s'.counter := by
  rw [hpc] at hj
  by_cases hji : j = i
  · rw [hji, Function.update_self] at hj
    exact hp' v hj
  · rw [Function.update_of_ne hji] at hj
    rcases hown with hc | hin
    · rw [hc]
      exact h.knows j v hj
    · exact absurd (h.unique (by rw [hj]; rfl) (by rw [hp]; exact hin)) hji

theorem init : MutexInv (MutexCounterService.new (ι := ι)) where
  mu := (count_eq_zero.mpr fun _ => rfl).symm
  counter := by rw [MutexCounterService.new, count_eq_zero.mpr fun _ => rfl]; rfl
  knows _ _ h := nomatch h
  dispensed := Dispensed.nil nextValue

/-- Steps that log no call and return from none. -/
theorem move (h : MutexInv s) (hp : s.pc i = p) {mu : Bool} {c : UInt64}
    (hmu : mu.toNat + p.locked.toNat = s.mu.toNat + p'.locked.toNat)
    (hc : c = .ofNat (s.log.length + count MutexPc.ahead (Function.update s.pc i p')))
    (hown : c = s.counter ∨ p.locked = true) (hp' : ∀ v, p' = .write v → v = c) (hhand : p.hand = p'.hand) :
    MutexInv { s.goto i p' with mu := mu, counter := c } := by
  have hlocked := count_update MutexPc.locked s.pc i p'
  rw [hp] at hlocked
  have hmu0 := h.mu
  refine ⟨?_, hc, h.knows_of_move hp rfl hown hp', ?_⟩
  · dsimp only [MutexCounterService.goto]
    omega
  · refine ⟨h.dispensed.values, fun j => (h.dispensed.taken j).trans ?_⟩
    dsimp only [MutexCounterService.goto]
    by_cases hji : j = i
    · rw [hji, Function.update_self, hp, hhand]
    · rw [Function.update_of_ne hji]

theorem counter_same (h : MutexInv s) (hp : s.pc i = p) (hahead : p'.ahead = p.ahead) :
    s.counter = .ofNat (s.log.length + count MutexPc.ahead (Function.update s.pc i p')) := by
  have hcount := count_update MutexPc.ahead s.pc i p'
  rw [hp, hahead] at hcount
  rw [h.counter, Nat.add_right_cancel hcount]

theorem locked_of_ahead {p : MutexPc} (hp : p.ahead = true) : p.locked = true := by
  cases p with
  | result => rfl
  | _ => cases hp

/-- `return c.counter`: the call takes effect. -/
theorem result (h : MutexInv s) (hp : s.pc i = .result) :
    MutexInv { s.goto i (.unlock s.counter) with log := s.log ++ [(i, s.counter)] } := by
  have hpos : 0 < count MutexPc.ahead s.pc := count_pos i (by rw [hp]; rfl)
  have hle : count MutexPc.ahead s.pc ≤ 1 := by
    refine count_le_one.mpr fun j k hj hk => h.unique (locked_of_ahead hj) (locked_of_ahead hk)
  have hvalue : s.counter = nextValue s.log.length := by
    rw [h.counter, nextValue, show count MutexPc.ahead s.pc = 1 by omega]
  have hlocked := count_update MutexPc.locked s.pc i (.unlock s.counter)
  have hahead := count_update MutexPc.ahead s.pc i (.unlock s.counter)
  rw [hp] at hlocked hahead
  have hmu := h.mu
  refine ⟨?_, ?_, h.knows_of_move hp rfl (Or.inl rfl) nofun, ?_⟩
  · dsimp only [MutexCounterService.goto, MutexPc.locked, Bool.toNat_true] at hlocked ⊢
    omega
  · dsimp only [MutexCounterService.goto, MutexPc.ahead, Bool.toNat_true, Bool.toNat_false] at hahead ⊢
    refine h.counter.trans (congrArg UInt64.ofNat ?_)
    rw [List.length_append, List.length_singleton]
    omega
  · dsimp only [MutexCounterService.goto]
    rw [hvalue]
    refine h.dispensed.append ?_ fun j hj => ?_
    · rw [Function.update_self, hp]
      exact congrArg (· ++ [nextValue s.log.length]) (List.append_nil _).symm
    · rw [Function.update_of_ne hj]

/-- `defer c.mu.Unlock()`: the call returns. -/
theorem unlock (h : MutexInv s) {v : UInt64} (hp : s.pc i = .unlock v) :
    MutexInv { s.goto i .idle with mu := false, got := Function.update s.got i (s.got i ++ [v]) } := by
  have hlocked := count_update MutexPc.locked s.pc i .idle
  have hahead := count_update MutexPc.ahead s.pc i .idle
  rw [hp] at hlocked hahead
  have hmu := h.mu
  have hle := Bool.toNat_le s.mu
  refine ⟨?_, ?_, h.knows_of_move hp rfl (Or.inl rfl) nofun, h.dispensed.values, fun j => ?_⟩
  · dsimp only [MutexCounterService.goto, MutexPc.locked, Bool.toNat_true, Bool.toNat_false] at hlocked ⊢
    omega
  · dsimp only [MutexCounterService.goto, MutexPc.ahead, Bool.toNat_false] at hahead ⊢
    exact h.counter.trans (congrArg UInt64.ofNat (by omega))
  · refine (h.dispensed.taken j).trans ?_
    dsimp only [MutexCounterService.goto]
    by_cases hji : j = i
    · rw [hji, Function.update_self, Function.update_self, hp]
      exact (List.append_nil _).symm
    · rw [Function.update_of_ne hji, Function.update_of_ne hji]

theorem step (h : MutexInv s) (hs : s.getNext i = some s') : MutexInv s' := by
  rw [MutexCounterService.getNext] at hs
  cases hp : s.pc i with
  | idle =>
    rw [hp] at hs
    obtain rfl := Option.some.inj hs
    exact h.move hp rfl (h.counter_same hp rfl) (Or.inl rfl) nofun rfl
  | lock =>
    rw [hp] at hs
    obtain ⟨hmu, hs⟩ := Option.ite_none_left_eq_some.mp hs
    obtain rfl := Option.some.inj hs
    refine h.move hp ?_ (h.counter_same hp rfl) (Or.inl rfl) nofun rfl
    rw [Bool.eq_false_iff.mpr hmu]
    rfl
  | read =>
    rw [hp] at hs
    obtain rfl := Option.some.inj hs
    exact h.move hp rfl (h.counter_same hp rfl) (Or.inl rfl) (fun v hv => (MutexPc.write.inj hv).symm) rfl
  | write v =>
    rw [hp] at hs
    obtain rfl := Option.some.inj hs
    refine h.move hp rfl ?_ (Or.inr rfl) nofun rfl
    have hahead := count_update MutexPc.ahead s.pc i .result
    rw [hp] at hahead
    calc v + 1 = .ofNat (s.log.length + count MutexPc.ahead s.pc) + 1 := by rw [h.knows i v hp, ← h.counter]
      _ = .ofNat (s.log.length + (count MutexPc.ahead s.pc + 1)) := (UInt64.ofNat_add _ 1).symm
      _ = .ofNat (s.log.length + count MutexPc.ahead (Function.update s.pc i .result)) :=
        congrArg (fun m => UInt64.ofNat (s.log.length + m)) hahead.symm
  | result =>
    rw [hp] at hs
    obtain rfl := Option.some.inj hs
    exact h.result hp
  | unlock v =>
    rw [hp] at hs
    obtain rfl := Option.some.inj hs
    exact h.unlock hp

end MutexInv

/-- **The mutex service counts**, in every state that any number of goroutines reach. -/
theorem mutexCounter_counts (h : (mutexCounter ι).Reach s) : Counts s.log s.got fun i => (s.pc i).hand := by
  refine Counts.of_dispensed (MutexInv.dispensed ?_)
  refine System.Reach.induct (S := mutexCounter ι) (fun t ht => ?_) (fun t a r t' hI _ he => ?_) h
  · rw [show t = .new from ht]
    exact MutexInv.init
  · obtain ⟨u, hu, he⟩ := Option.map_eq_some_iff.mp he
    obtain ⟨-, rfl⟩ := Prod.mk.inj he
    exact hI.step hu

end Mutex

/-! ## ChannelCounterService -/

inductive ChannelPc
  | idle
  | receive
  | result (v : UInt64)
  deriving DecidableEq

def ChannelPc.hand : ChannelPc → List UInt64
  | result v => [v]
  | _ => []

/-- The goroutine that fills the channel: at the send of `i`, or after it. -/
inductive FillPc
  | send
  | sent
  deriving DecidableEq

structure ChannelCounterService (ι : Type*) where
  pc : ι → ChannelPc
  ch : Chan UInt64
  fill : FillPc
  i : UInt64
  log : List (ι × UInt64)
  got : ι → List UInt64

namespace ChannelCounterService

variable {ι : Type*} [DecidableEq ι]

def newChannelCounterService : ChannelCounterService ι :=
  ⟨fun _ => .idle, .make 1000, .send, 1, [], fun _ => []⟩

def goto (s : ChannelCounterService ι) (j : ι) (pc : ChannelPc) : ChannelCounterService ι :=
  { s with pc := Function.update s.pc j pc }

/-- One operation of goroutine `j` in `getNext`. -/
def getNext (s : ChannelCounterService ι) (j : ι) : Option (ChannelCounterService ι) :=
  match s.pc j with
  | .idle => some (s.goto j .receive)
  | .receive =>
    match s.ch.receive with
    | .value v ch => some { s.goto j (.result v) with ch := ch, log := s.log ++ [(j, v)] }
    | .waits => none
    -- a closed channel gives the zero value
    | .closed => some { s.goto j (.result 0) with log := s.log ++ [(j, 0)] }
  | .result v => some { s.goto j .idle with got := Function.update s.got j (s.got j ++ [v]) }

/-- One operation of the goroutine that fills the channel. -/
def filler (s : ChannelCounterService ι) : Option (ChannelCounterService ι) :=
  match s.fill with
  | .send =>
    match s.ch.send s.i with
    | .done ch => some { s with fill := .sent, ch := ch }
    | _ => none
  | .sent => some { s with fill := .send, i := s.i + 1 }

end ChannelCounterService

/-- The steps of the callers, and `none` for those of the goroutine that fills the channel. -/
def channelCounter (ι : Type*) [DecidableEq ι] : System (ChannelCounterService ι) (Option ι) Unit where
  init s := s = .newChannelCounterService
  legal _ _ := True
  exec s a := (a.elim s.filler s.getNext).map fun s' => ((), s')

section Channel

variable {ι : Type*} [DecidableEq ι] {s s' : ChannelCounterService ι}

def FillPc.behind : FillPc → UInt64
  | send => 0
  | sent => 1

/-- The values in the channel come after those of the log, and the next one to be sent after them. -/
structure ChannelInv (s : ChannelCounterService ι) : Prop where
  opened : s.ch.closed = false
  values : s.ch.buf = (List.range' s.log.length s.ch.buf.length).map nextValue
  next : s.i + s.fill.behind = nextValue (s.log.length + s.ch.buf.length)
  dispensed : Dispensed nextValue s.log fun j => s.got j ++ (s.pc j).hand

namespace ChannelInv

theorem init : ChannelInv (ChannelCounterService.newChannelCounterService (ι := ι)) where
  opened := rfl
  values := rfl
  next := rfl
  dispensed := Dispensed.nil nextValue

theorem filler (h : ChannelInv s) (hs : s.filler = some s') : ChannelInv s' := by
  rw [ChannelCounterService.filler] at hs
  have hnext := h.next
  cases hp : s.fill with
  | send =>
    rw [hp] at hs hnext
    have hi : s.i = nextValue (s.log.length + s.ch.buf.length) := (UInt64.add_zero s.i).symm.trans hnext
    dsimp only at hs
    split at hs
    · rename_i ch hch
      obtain ⟨-, rfl⟩ := Chan.of_send hch
      obtain rfl := Option.some.inj hs
      refine { h with values := ?_, next := ?_ }
      · rw [List.length_append, List.length_singleton, List.range'_1_concat, List.map_append, ← h.values, hi]
        rfl
      · rw [List.length_append, List.length_singleton, ← Nat.add_assoc, ← nextValue_succ, ← hi]
        rfl
    · cases hs
  | sent =>
    rw [hp] at hs hnext
    obtain rfl := Option.some.inj hs
    exact { h with next := (UInt64.add_zero _).trans hnext }

theorem getNext (h : ChannelInv s) {j : ι} (hs : s.getNext j = some s') : ChannelInv s' := by
  rw [ChannelCounterService.getNext] at hs
  cases hp : s.pc j with
  | idle =>
    rw [hp] at hs
    obtain rfl := Option.some.inj hs
    refine { h with dispensed := ⟨h.dispensed.values, fun k => (h.dispensed.taken k).trans ?_⟩ }
    dsimp only [ChannelCounterService.goto]
    by_cases hkj : k = j
    · rw [hkj, Function.update_self, hp]
      rfl
    · rw [Function.update_of_ne hkj]
  | receive =>
    rw [hp] at hs
    dsimp only at hs
    split at hs
    · rename_i v ch hch
      obtain ⟨hbuf, hch'⟩ := Chan.of_receive hch
      obtain rfl := Option.some.inj hs
      have hvalues := h.values
      have hnext := h.next
      rw [hbuf, List.length_cons, List.range'_succ, List.map_cons, List.cons.injEq] at hvalues
      rw [hbuf, List.length_cons] at hnext
      obtain ⟨hv, hrest⟩ := hvalues
      refine ⟨?_, ?_, ?_, ?_⟩
      · rw [hch']
        exact h.opened
      · rw [List.length_append, List.length_singleton]
        exact hrest
      · rw [List.length_append, List.length_singleton, Nat.add_assoc, Nat.add_comm 1]
        exact hnext
      · dsimp only [ChannelCounterService.goto]
        rw [hv]
        refine h.dispensed.append ?_ fun k hk => ?_
        · rw [Function.update_self, hp]
          exact congrArg (· ++ [nextValue s.log.length]) (List.append_nil _).symm
        · rw [Function.update_of_ne hk]
    · cases hs
    · rename_i hch
      have hclosed := (Chan.of_receive_closed hch).2
      rw [h.opened] at hclosed
      cases hclosed
  | result v =>
    rw [hp] at hs
    obtain rfl := Option.some.inj hs
    refine { h with dispensed := ⟨h.dispensed.values, fun k => (h.dispensed.taken k).trans ?_⟩ }
    dsimp only [ChannelCounterService.goto]
    by_cases hkj : k = j
    · rw [hkj, Function.update_self, Function.update_self, hp]
      exact (List.append_nil _).symm
    · rw [Function.update_of_ne hkj, Function.update_of_ne hkj]

end ChannelInv

/-- **The channel service counts**, in every state that any number of goroutines reach with the one that fills the
channel. -/
theorem channelCounter_counts (h : (channelCounter ι).Reach s) : Counts s.log s.got fun j => (s.pc j).hand := by
  refine Counts.of_dispensed (ChannelInv.dispensed ?_)
  refine System.Reach.induct (S := channelCounter ι) (fun t ht => ?_) (fun t a r t' hI _ he => ?_) h
  · rw [show t = .newChannelCounterService from ht]
    exact ChannelInv.init
  · obtain ⟨u, hu, he⟩ := Option.map_eq_some_iff.mp he
    obtain ⟨-, rfl⟩ := Prod.mk.inj he
    cases a with
    | none => exact hI.filler hu
    | some j => exact hI.getNext hu

end Channel

/-- Goroutine `true` waits for the mutex until goroutine `false` has its value. -/
def sampleCalls : List Bool := [true] ++ List.replicate 6 false ++ List.replicate 5 true

theorem mutexCounter_counts_sample : ∃ s, (mutexCounter Bool).after .new sampleCalls = some s ∧
    s.got false = [1] ∧ s.got true = [2] ∧ ∀ v, v ∈ s.got false → v ∉ s.got true := by
  have hrun : ((mutexCounter Bool).after .new sampleCalls).any (fun s =>
      s.got false = [1] ∧ s.got true = [2] ∧ s.log.length < 2 ^ 64) = true := rfl
  obtain ⟨s, hs, hreach, h0, h1, hlt⟩ := System.Reach.of_after (fun _ _ _ => trivial) rfl hrun
  refine ⟨s, hs, h0, h1, fun v hv0 hv1 => ?_⟩
  exact absurd ((mutexCounter_counts hreach).distinct hlt false true v hv0 hv1) (by decide)

/-- Two values are in the channel when goroutine `true` takes the first. -/
def sampleFills : List (Option Bool) :=
  [none, none, none, some true, some true, some false, some false, some false, some true]

theorem channelCounter_counts_sample : ∃ s,
    (channelCounter Bool).after .newChannelCounterService sampleFills = some s ∧
    s.got false = [2] ∧ s.got true = [1] ∧ ∀ v, v ∈ s.got false → v ∉ s.got true := by
  have hrun : ((channelCounter Bool).after .newChannelCounterService sampleFills).any (fun s =>
      s.got false = [2] ∧ s.got true = [1] ∧ s.log.length < 2 ^ 64) = true := rfl
  obtain ⟨s, hs, hreach, h0, h1, hlt⟩ := System.Reach.of_after (fun _ _ _ => trivial) rfl hrun
  refine ⟨s, hs, h0, h1, fun v hv0 hv1 => ?_⟩
  exact absurd ((channelCounter_counts hreach).distinct hlt false true v hv0 hv1) (by decide)

end Csapp.Threads
