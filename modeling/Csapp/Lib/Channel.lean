import Mathlib.Data.List.Basic

/-!
# Lib.Channel — channels with a buffer

A channel holds at most `cap` values.  A sender waits while the buffer is full, a receiver while it is empty; a
channel without a buffer passes a value on only where a sender and a receiver meet (`Chan.meets`).  A send on a
closed channel panics, and a receiver of a closed channel is told so when the buffer is empty.
-/

namespace Csapp.Lib

structure Chan (α : Type*) where
  cap : ℕ
  buf : List α
  closed : Bool

inductive Sent (α : Type*)
  | done (ch : Chan α)
  | waits
  | panics

inductive Received (α : Type*)
  | value (x : α) (ch : Chan α)
  | waits
  | closed

namespace Chan

variable {α : Type*} {ch ch' : Chan α} {x : α}

def make (cap : ℕ) : Chan α := ⟨cap, [], false⟩

def send (ch : Chan α) (x : α) : Sent α :=
  if ch.closed then .panics else if ch.buf.length < ch.cap then .done { ch with buf := ch.buf ++ [x] } else .waits

def receive (ch : Chan α) : Received α :=
  match ch.buf with
  | x :: xs => .value x { ch with buf := xs }
  | [] => if ch.closed then .closed else .waits

/-- A sender and a receiver that both wait pass a value on. -/
def meets (ch : Chan α) : Bool := ch.cap = 0 && !ch.closed

def close (ch : Chan α) : Chan α := { ch with closed := true }

theorem send_ne_panics (hopen : ch.closed = false) : ch.send x ≠ .panics := by
  rw [send, hopen, if_neg Bool.false_ne_true]
  split
  · exact nofun
  · exact nofun

theorem of_send (h : ch.send x = .done ch') :
    ch.buf.length < ch.cap ∧ ch' = { ch with buf := ch.buf ++ [x] } := by
  rw [send] at h
  split at h
  · cases h
  · split at h
    · exact ⟨‹_›, (Sent.done.inj h).symm⟩
    · cases h

theorem of_receive (h : ch.receive = .value x ch') : ch.buf = x :: ch'.buf ∧ ch' = { ch with buf := ch'.buf } := by
  rw [receive] at h
  split at h
  · obtain ⟨rfl, rfl⟩ := Received.value.inj h
    exact ⟨‹_›, rfl⟩
  · split at h <;> cases h

theorem of_receive_closed (h : ch.receive = .closed) : ch.buf = [] ∧ ch.closed = true := by
  rw [receive] at h
  split at h
  · cases h
  · split at h
    · exact ⟨‹_›, ‹_›⟩
    · cases h

theorem of_receive_waits (h : ch.receive = .waits) : ch.buf = [] ∧ ch.closed = false := by
  rw [receive] at h
  split at h
  · cases h
  · split at h
    · cases h
    · exact ⟨‹_›, Bool.eq_false_iff.mpr ‹_›⟩

/-- A sender that waits at an empty buffer is one that a receiver meets. -/
theorem meets_of_waits (hempty : ch.buf = []) (h : ch.send x = .waits) : ch.meets = true := by
  rw [send, hempty] at h
  split at h
  · cases h
  · split at h
    · cases h
    · rename_i hopen hcap
      rw [meets, Bool.eq_false_iff.mpr hopen, Nat.eq_zero_of_not_pos hcap]
      rfl

theorem of_meets (h : ch.meets = true) : ch.cap = 0 ∧ ch.closed = false := by
  rw [meets, Bool.and_eq_true, decide_eq_true_eq, Bool.not_eq_true'] at h
  exact h

end Chan

end Csapp.Lib
