import Mathlib.Logic.Function.Basic
import Mathlib.Data.Nat.Notation

/-!
# Vm.Regions — writing into the memory regions of the virtual computer

Memory has 256 bytes, data in front of the instructions.  Addresses and the room that is left up to the end of a
region are bytes and wrap; the length of what is written does not.
-/

namespace Csapp.Vm.SelfVm

abbrev dataBoundary : UInt8 := 0x07

abbrev Memory := UInt8 → UInt8

namespace Memory

/-- The loop of `writeToMemory`: `b` goes to `i` and behind it. -/
def writeFrom (memory : Memory) : List UInt8 → UInt8 → Memory
  | [], _ => memory
  | x :: b, i => writeFrom (Function.update memory i x) b (i + 1)

/-- `stop` is the `end` of the source, the last address that may be written. -/
def writeToMemory (memory : Memory) (b : List UInt8) (start stop : UInt8) : Except String ℕ × Memory :=
  if b.length > (stop - start + 1).toNat then (.error "not enough memory to write to", memory)
  else (.ok b.length, memory.writeFrom b start)

def writeInstructions (memory : Memory) (b : List UInt8) (start : UInt8) : Except String ℕ × Memory :=
  memory.writeToMemory b start 255

def writeData (memory : Memory) (b : List UInt8) (start : UInt8) : Except String ℕ × Memory :=
  memory.writeToMemory b start dataBoundary

variable {memory : Memory} {b : List UInt8} {start stop : UInt8}

/-- The cell at a distance `k` behind `i`, around the end of memory, gets byte `k`. -/
theorem writeFrom_apply (hb : b.length ≤ 256) (i a : UInt8) :
    memory.writeFrom b i a = b[(a - i).toNat]?.getD (memory a) := by
  induction b generalizing memory i with
  | nil => rfl
  | cons x b ih =>
    rw [List.length_cons] at hb
    rw [writeFrom, ih (by omega)]
    by_cases ha : a = i
    · subst ha
      have hlast : (a - (a + 1)).toNat = 255 := by
        simp only [UInt8.toNat_sub, UInt8.toNat_add, UInt8.reduceToNat]
        have := a.toNat_lt
        omega
      rw [hlast, List.getElem?_eq_none (by omega), Function.update_self]
      simp
    · have hne : a.toNat ≠ i.toNat := fun h => ha (UInt8.toNat_inj.mp h)
      have hstep : (a - i).toNat = (a - (i + 1)).toNat + 1 := by
        simp only [UInt8.toNat_sub, UInt8.toNat_add, UInt8.reduceToNat]
        have := a.toNat_lt
        have := i.toNat_lt
        omega
      rw [hstep, List.getElem?_cons_succ, Function.update_of_ne ha]

/-- Inside of memory nothing wraps. -/
theorem writeFrom_apply_of_le (hb : start.toNat + b.length ≤ 256) (a : UInt8) :
    memory.writeFrom b start a =
      if start ≤ a then b[a.toNat - start.toNat]?.getD (memory a) else memory a := by
  have ha := a.toNat_lt
  have hs := start.toNat_lt
  rw [writeFrom_apply (by omega)]
  by_cases hle : start ≤ a
  · rw [if_pos hle, UInt8.toNat_sub_of_le _ _ hle]
  · have hlt : ¬start.toNat ≤ a.toNat := fun h => hle (UInt8.le_iff_toNat_le.mpr h)
    have hd : (a - start).toNat = 256 + a.toNat - start.toNat := by
      rw [UInt8.toNat_sub]
      omega
    rw [if_neg hle, hd, List.getElem?_eq_none (by omega), Option.getD_none]

theorem writeToMemory_of_le (h : b.length ≤ (stop - start + 1).toNat) :
    memory.writeToMemory b start stop = (.ok b.length, memory.writeFrom b start) :=
  if_neg (Nat.not_lt.mpr h)

theorem writeToMemory_of_lt (h : (stop - start + 1).toNat < b.length) :
    memory.writeToMemory b start stop = (.error "not enough memory to write to", memory) :=
  if_pos h

/-! ## Regions -/

/-- A write at `start` into a region that ends before `limit`: it succeeds where `b` fits, the addresses from
`start` on then hold `b` and the others what they held, and an error leaves memory alone. -/
structure Writes (limit : ℕ) (memory : Memory) (b : List UInt8) (start : UInt8)
    (r : Except String ℕ × Memory) : Prop where
  ok_iff : r.1.isOk = true ↔ start.toNat + b.length ≤ limit
  ok : r.1.isOk = true → ∀ a, r.2 a =
    if start ≤ a then b[a.toNat - start.toNat]?.getD (memory a) else memory a
  error : r.1.isOk = false → r.2 = memory

/-- Where the room that is left does not wrap, the write is one into its region. -/
theorem writeToMemory_writes {limit : ℕ} (hlimit : limit ≤ 256)
    (h : b.length ≤ (stop - start + 1).toNat ↔ start.toNat + b.length ≤ limit) :
    Writes limit memory b start (memory.writeToMemory b start stop) := by
  by_cases hb : b.length ≤ (stop - start + 1).toNat
  · rw [writeToMemory_of_le hb]
    have hfit := h.mp hb
    exact ⟨⟨fun _ => hfit, fun _ => rfl⟩, fun _ => writeFrom_apply_of_le (Nat.le_trans hfit hlimit),
      fun hf => absurd hf.symm Bool.false_ne_true⟩
  · rw [writeToMemory_of_lt (Nat.lt_of_not_le hb)]
    exact ⟨⟨fun hf => absurd hf Bool.false_ne_true, fun hf => absurd (h.mpr hf) hb⟩,
      fun hf => absurd hf Bool.false_ne_true, fun _ => rfl⟩

/-- A write that is one into its region has the right test. -/
theorem Writes.fits {limit : ℕ} (h : Writes limit memory b start (memory.writeToMemory b start stop)) :
    b.length ≤ (stop - start + 1).toNat ↔ start.toNat + b.length ≤ limit := by
  rw [← h.ok_iff]
  by_cases hb : b.length ≤ (stop - start + 1).toNat
  · rw [writeToMemory_of_le hb]
    exact ⟨fun _ => rfl, fun _ => hb⟩
  · rw [writeToMemory_of_lt (Nat.lt_of_not_le hb)]
    exact ⟨fun hf => absurd hf hb, fun hf => absurd hf Bool.false_ne_true⟩

theorem writes_iff_fits {limit : ℕ} (hlimit : limit ≤ 256) :
    Writes limit memory b start (memory.writeToMemory b start stop) ↔
      (b.length ≤ (stop - start + 1).toNat ↔ start.toNat + b.length ≤ limit) :=
  ⟨Writes.fits, writeToMemory_writes hlimit⟩

/-- Behind the data region the room for data wraps around, and at 0 the room for instructions is none. -/
theorem regions_iff (memory : Memory) (b : List UInt8) (start : UInt8) :
    (Writes 8 memory b start (memory.writeData b start) ↔ start ≤ 8 ∨ 264 < start.toNat + b.length) ∧
      (Writes 256 memory b start (memory.writeInstructions b start) ↔
        start ≠ 0 ∨ b = [] ∨ 256 < b.length) := by
  have hs := start.toNat_lt
  constructor
  · have hd : dataBoundary.toNat = 7 := rfl
    rw [writeData, writes_iff_fits (by omega), UInt8.le_iff_toNat_le, UInt8.toNat_add, UInt8.toNat_sub, hd]
    simp only [UInt8.reduceToNat]
    omega
  · have h0 : start = 0 ↔ start.toNat = 0 := by rw [← UInt8.toNat_inj, UInt8.toNat_zero]
    rw [writeInstructions, writes_iff_fits (Nat.le_refl _), ne_eq, h0, ← List.length_eq_zero_iff, UInt8.toNat_add,
      UInt8.toNat_sub]
    simp only [UInt8.reduceToNat]
    omega

/-- Room for 255 bytes of data is found at address 9, in front of the instructions. -/
theorem data_written_at_nine :
    ¬∀ (memory : Memory) (b : List UInt8) (start : UInt8),
      Writes 8 memory b start (memory.writeData b start) ∧
        Writes 256 memory b start (memory.writeInstructions b start) := by
  intro h
  exact absurd ((h (fun _ => 0) [1] 9).1.ok_iff.mp rfl) (by decide)

end Memory

end Csapp.Vm.SelfVm
