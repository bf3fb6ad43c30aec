import Csapp.Bump.Allocator
import Csapp.Lib.Run

/-!
# Bump.Run — runs of the bump allocator

The client's view of a run: beside the allocator, `World` has the allocations that are live, those whose end
the offset has never dropped below.  `bump_safe`: in every state of every run they are disjoint, and the next
allocation is where it should be.
-/

namespace Csapp.Bump

open Csapp.Lib

/-! ## The client -/

structure Block where
  addr : ℕ
  size : ℕ
  deriving DecidableEq

def Block.Disjoint (b c : Block) : Prop := b.addr + b.size ≤ c.addr ∨ c.addr + c.size ≤ b.addr

/-- The offset is not below the end of the block. -/
def Block.Below (a : BumpAllocator) (b : Block) : Prop := b.addr + b.size ≤ a.buffer.toNat + a.offset.toNat

instance (a : BumpAllocator) : DecidablePred (Block.Below a) := fun b =>
  inferInstanceAs (Decidable (b.addr + b.size ≤ a.buffer.toNat + a.offset.toNat))

structure World where
  alloc : BumpAllocator
  live : List Block
  deriving DecidableEq

inductive Call
  | alloc (size align : Word)
  | save
  | restore (marker : BumpMarker)
  | reset

inductive Result
  | pointer (p : Word)
  | marker (m : BumpMarker)
  | restored (b : Bool)
  | done
  deriving DecidableEq

/-- What is live after the allocator has become `a`. -/
def World.moved (w : World) (a : BumpAllocator) : World := ⟨a, w.live.filter fun b => decide (b.Below a)⟩

/-- The client gets the bytes at `p`, if it asked for any and the call did not fail. -/
def World.hold (w : World) (p size : Word) : World :=
  if p = nullptr ∨ size = 0 then w else { w with live := ⟨p.toNat, size.toNat⟩ :: w.live }

def exec (maxAlign : Word) (w : World) : Call → Option (Result × World)
  | .alloc size align =>
    match bumpAlloc maxAlign (some w.alloc) size align with
    | (_, none) => none
    | (p, some a) => some (.pointer p, (w.moved a).hold p size)
  | .save => some (.marker (bumpSave (some w.alloc)), w)
  | .restore marker =>
    match bumpRestore (some w.alloc) marker with
    | (_, none) => none
    | (ok, some a) => some (.restored ok, w.moved a)
  | .reset =>
    match bumpReset (some w.alloc) with
    | none => none
    | some a => some (.done, w.moved a)

/-- Runs of any calls, from the allocator that `bumpInit` leaves behind. -/
def bumpSystem (maxAlign buffer capacity : Word) : System World Call Result where
  init w := w = ⟨⟨buffer, capacity, 0⟩, []⟩
  legal _ _ := True
  exec := exec maxAlign

theorem bumpInit_eq (a : BumpAllocator) {buffer capacity : Word} (hb : buffer ≠ nullptr) (hc : capacity ≠ 0) :
    bumpInit (some a) buffer capacity = (.ok, some ⟨buffer, capacity, 0⟩) :=
  if_neg (not_or.mpr ⟨hb, hc⟩)

/-! ## The invariant -/

structure WorldInv (base size : Word) (w : World) : Prop where
  buffer : w.alloc.buffer = base
  capacity : w.alloc.capacity = size
  offset : w.alloc.offset.toNat ≤ size.toNat
  below : ∀ b ∈ w.live, b.Below w.alloc
  above : ∀ b ∈ w.live, base.toNat ≤ b.addr
  disjoint : w.live.Pairwise Block.Disjoint

section Steps

variable {buffer capacity : Word} {w : World}

/-- The offset moves inside the arena. -/
theorem WorldInv.moved (h : WorldInv buffer capacity w) {a : BumpAllocator} (hb : a.buffer = buffer)
    (hc : a.capacity = capacity) (ho : a.offset.toNat ≤ capacity.toNat) :
    WorldInv buffer capacity (w.moved a) := by
  refine ⟨hb, hc, ho, fun b hm => ?_, fun b hm => ?_, h.disjoint.filter _⟩
  · exact of_decide_eq_true (List.mem_filter.mp hm).2
  · exact h.above b (List.mem_filter.mp hm).1

theorem World.moved_self (h : WorldInv buffer capacity w) : w.moved w.alloc = w := by
  have hlive : w.live.filter (fun b => decide (b.Below w.alloc)) = w.live :=
    List.filter_eq_self.mpr fun b hb => decide_eq_true (h.below b hb)
  rw [World.moved, hlive]

/-- A new block is above all that are live. -/
theorem WorldInv.hold (h : WorldInv buffer capacity w) {size align p : Word} {a : BumpAllocator}
    (hg : Grants w.alloc size align p a) :
    WorldInv buffer capacity ⟨a, ⟨p.toNat, size.toNat⟩ :: (w.moved a).live⟩ := by
  have hcap : a.capacity = capacity := hg.capacity.trans h.capacity
  have hm := h.moved (hg.buffer.trans h.buffer) hcap (hcap ▸ hg.inside)
  have habove := hg.above
  refine ⟨hm.buffer, hm.capacity, hm.offset, ?_, ?_, ?_⟩
  · intro b hb
    rcases List.mem_cons.mp hb with rfl | hb
    · exact hg.next.ge
    · exact hm.below b hb
  · intro b hb
    rcases List.mem_cons.mp hb with rfl | hb
    · rw [h.buffer] at habove
      exact Nat.le_trans (Nat.le_add_right _ _) habove
    · exact hm.above b hb
  · refine List.pairwise_cons.mpr ⟨fun b hb => .inr ?_, hm.disjoint⟩
    exact Nat.le_trans (h.below b (List.mem_filter.mp hb).1) habove

end Steps

section Run

variable {maxAlign buffer capacity : Word} {w : World} (hfit : buffer.toNat + capacity.toNat ≤ 2 ^ 64)
include hfit

/-- An allocation changes nothing, or grants what was asked for. -/
theorem WorldInv.exec_alloc (h : WorldInv buffer capacity w) (size align : Word) :
    (∃ p, exec maxAlign w (.alloc size align) = some (.pointer p, w) ∧ (p = nullptr ∨ size = 0)) ∨
      ∃ p a, exec maxAlign w (.alloc size align) =
          some (.pointer p, ⟨a, ⟨p.toNat, size.toNat⟩ :: (w.moved a).live⟩) ∧
        Grants w.alloc size (requested maxAlign align) p a := by
  have hoff : w.alloc.offset.toNat ≤ w.alloc.capacity.toNat := by
    rw [h.capacity]
    exact h.offset
  have hroom : w.alloc.buffer.toNat + w.alloc.capacity.toNat ≤ 2 ^ 64 := by rwa [h.buffer, h.capacity]
  rcases bumpAlloc_cases hoff hroom maxAlign size align with ⟨p, heq, hp⟩ | ⟨p, a, heq, hg⟩
  · refine .inl ⟨p, ?_, hp⟩
    simp only [exec, heq, World.moved_self h, World.hold, if_pos hp]
  · refine .inr ⟨p, a, ?_, hg⟩
    simp only [exec, heq, World.hold, if_neg (not_or.mpr ⟨hg.nonzero, hg.wanted⟩)]
    rfl

theorem bumpSystem_invariant : (bumpSystem maxAlign buffer capacity).Invariant (WorldInv buffer capacity) where
  init := by
    rintro w rfl
    exact ⟨rfl, rfl, Nat.zero_le _, fun _ hb => absurd hb List.not_mem_nil,
      fun _ hb => absurd hb List.not_mem_nil, List.Pairwise.nil⟩
  step := by
    intro w c h _
    cases c with
    | alloc size align =>
      rcases h.exec_alloc hfit size align with ⟨p, heq, -⟩ | ⟨p, a, heq, hg⟩
      · exact ⟨_, _, heq, h⟩
      · exact ⟨_, _, heq, h.hold hg⟩
    | save => exact ⟨_, _, rfl, h⟩
    | restore marker =>
      by_cases hm : marker > w.alloc.offset
      · refine ⟨.restored false, w, ?_, h⟩
        show exec maxAlign w (.restore marker) = _
        simp only [exec, bumpRestore, if_pos hm, World.moved_self h]
      · refine ⟨.restored true, w.moved { w.alloc with offset := marker }, ?_, ?_⟩
        · show exec maxAlign w (.restore marker) = _
          simp only [exec, bumpRestore, if_neg hm]
        · have hle : marker.toNat ≤ w.alloc.offset.toNat := BitVec.le_def.mp (BitVec.not_lt.mp hm)
          exact h.moved h.buffer h.capacity (hle.trans h.offset)
    | reset => exact ⟨_, _, rfl, h.moved h.buffer h.capacity (Nat.zero_le _)⟩

/-- **The bump allocator is safe over whole runs.** -/
theorem bump_safe (hw : (bumpSystem maxAlign buffer capacity).Reach w) :
    w.alloc.offset ≤ capacity ∧ w.live.Pairwise Block.Disjoint ∧
      (∀ c, ∃ r w', exec maxAlign w c = some (r, w')) ∧
      (∀ size align p w', exec maxAlign w (.alloc size align) = some (.pointer p, w') →
        (p = nullptr → w'.alloc = w.alloc) ∧
        (p ≠ nullptr → size ≠ 0 →
          (requested maxAlign align).toNat ∣ p.toNat ∧
          buffer.toNat ≤ p.toNat ∧ p.toNat + size.toNat ≤ buffer.toNat + capacity.toNat ∧
          ∀ b ∈ w.live, Block.Disjoint ⟨p.toNat, size.toNat⟩ b)) ∧
      ∀ marker w', exec maxAlign w (.restore marker) = some (.restored false, w') → w'.alloc = w.alloc := by
  have hinv : (bumpSystem maxAlign buffer capacity).Invariant _ := bumpSystem_invariant hfit
  have h := hinv.reach hw
  refine ⟨BitVec.le_def.mpr h.offset, h.disjoint, fun c => ?_, ?_, ?_⟩
  · obtain ⟨r, w', he, -⟩ := hinv.progress hw (a := c) trivial
    exact ⟨r, w', he⟩
  · intro size align p w' he
    rcases h.exec_alloc hfit size align with ⟨q, heq, hq⟩ | ⟨q, a, heq, hg⟩
    · cases heq.symm.trans he
      exact ⟨fun _ => rfl, fun hp hs => absurd hq (not_or.mpr ⟨hp, hs⟩)⟩
    · cases heq.symm.trans he
      refine ⟨fun hp => absurd hp hg.nonzero, fun _ _ => ⟨hg.aligned, ?_, ?_, fun b hb => ?_⟩⟩
      · have habove := hg.above
        rw [h.buffer] at habove
        omega
      · have hnext := hg.next
        have hinside := hg.inside
        rw [hg.buffer, h.buffer] at hnext
        rw [hg.capacity, h.capacity] at hinside
        omega
      · exact .inr (Nat.le_trans (h.below b hb) hg.above)
  · intro marker w' he
    by_cases hm : marker > w.alloc.offset
    · simp only [exec, bumpRestore, if_pos hm] at he
      cases he
      rfl
    · simp only [exec, bumpRestore, if_neg hm] at he
      cases he

end Run

/-- The second block dies when the offset is moved below its end, and its bytes are given out again. -/
theorem bump_safe_sample :
    ∃ w, (bumpSystem 16 0x1000 64).after ⟨⟨0x1000, 64, 0⟩, []⟩
        [.alloc 10 1, .alloc 8 8, .restore 12, .alloc 4 0] = some w ∧
      w.live = [⟨0x1010, 4⟩, ⟨0x1000, 10⟩] ∧ w.alloc.offset ≤ 64 ∧ w.live.Pairwise Block.Disjoint := by
  have hrun : (((bumpSystem 16 0x1000 64).after ⟨⟨0x1000, 64, 0⟩, []⟩
      [.alloc 10 1, .alloc 8 8, .restore 12, .alloc 4 0]).any fun w =>
        decide (w.live = [⟨0x1010, 4⟩, ⟨0x1000, 10⟩])) = true := by decide
  obtain ⟨w, hafter, hreach, hlive⟩ := System.Reach.of_after (fun _ _ _ => trivial) rfl hrun
  obtain ⟨hoff, hdisj, -⟩ := bump_safe (by decide) hreach
  exact ⟨w, hafter, hlive, hoff, hdisj⟩

end Csapp.Bump
