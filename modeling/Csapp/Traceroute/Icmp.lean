import Csapp.Lib.OnesComplement

/-!
# Traceroute.Icmp — ICMP packets and their checksum

`05-traceroute/pkg/traceroute`.  `ComputeChecksum` folds the carry of every data word into its sum, but adds the
identifier and the sequence number to the first word mod `2 ^ 16`: where that wraps, the carries are lost
(`checksum_iff`).
-/

namespace Csapp.Traceroute

open Csapp.Lib

structure ICMPPacket where
  type : UInt8
  Code : UInt8
  Checksum : UInt16
  ID : UInt16
  SequenceNo : UInt16
  Data : List UInt8
  deriving DecidableEq

/-- `Encode`: a write to the buffer does not fail. -/
def ICMPPacket.Encode (p : ICMPPacket) : List UInt8 :=
  [p.type, p.Code] ++ be16 p.Checksum ++ be16 p.ID ++ be16 p.SequenceNo ++ p.Data

/-- What the loop of `ComputeChecksum` does with one word. -/
def addWord (sum16 cur16 : UInt16) : UInt16 :=
  let sum32 := sum16.toUInt32 + cur16.toUInt32
  let carry16 := (sum32 >>> 16).toUInt16
  sum32.toUInt16 + carry16

/-- The loop of `ComputeChecksum`, two bytes a round. -/
def sumLoop : List UInt8 → UInt16 → UInt16
  | [], sum16 => sum16
  | [x], sum16 => addWord sum16 ((0x0000 : UInt16) ||| (x.toUInt16 <<< 8))
  | x :: y :: b, sum16 => sumLoop b (addWord sum16 (uint16 [x, y]))

def ICMPPacket.ComputeChecksum (p : ICMPPacket) : UInt16 :=
  let sum16 := p.type.toUInt16 <<< 8 ||| p.Code.toUInt16
  let sum16 := sum16 + (p.SequenceNo + p.ID)
  0xFFFF ^^^ sumLoop p.Data sum16

/-- With its checksum set, the words of the packet add up to all ones. -/
def Verifies (p : ICMPPacket) : Prop :=
  (beWords { p with Checksum := p.ComputeChecksum }.Encode).foldl (onesAdd 16) 0 = 0xFFFF

instance (p : ICMPPacket) : Decidable (Verifies p) := inferInstanceAs (Decidable (_ = _))

/-! ## The loop -/

theorem toNat_addWord (x y : UInt16) : (addWord x y).toNat = onesAdd 16 x.toNat y.toNat := by
  have hx := x.toNat_lt
  have hy := y.toNat_lt
  have hsum : (x.toUInt32 + y.toUInt32).toNat = x.toNat + y.toNat := by
    rw [UInt32.toNat_add, UInt16.toNat_toUInt32, UInt16.toNat_toUInt32]
    omega
  rw [addWord, UInt16.toNat_add, UInt32.toNat_toUInt16, UInt32.toNat_toUInt16, UInt32.toNat_shiftRight, hsum,
    Nat.shiftRight_eq_div_pow]
  have hlt := onesAdd_lt hx hy
  unfold onesAdd at *
  have hshift : (16 : UInt32).toNat % 32 = 16 := rfl
  rw [hshift]
  omega

/-- The loop adds the words of the data. -/
theorem toNat_sumLoop : ∀ (b : List UInt8) (s : UInt16),
    (sumLoop b s).toNat = (beWords b).foldl (onesAdd 16) s.toNat
  | [], s => rfl
  | [x], s => by
    have hx : ((0x0000 : UInt16) ||| (x.toUInt16 <<< 8)).toNat = beNat [x, 0] := by
      have hlt := x.toNat_lt
      have hshift : (8 : UInt16).toNat % 16 = 8 := rfl
      rw [UInt16.zero_or, UInt16.toNat_shiftLeft, UInt8.toNat_toUInt16, hshift, Nat.shiftLeft_eq]
      show x.toNat * 2 ^ 8 % 2 ^ 16 = x.toNat * 256 + 0
      omega
    rw [sumLoop, toNat_addWord, hx]
    rfl
  | x :: y :: b, s => by
    have hxy : (uint16 [x, y]).toNat = beNat [x, y] := UInt16.toNat_ofNat_of_lt' (beNat_pair_lt x y)
    rw [sumLoop, toNat_sumLoop b, toNat_addWord, hxy]
    rfl

/-! ## The checksum -/

section Checksum

variable (p : ICMPPacket)

/-- What the first word, the sequence number and the identifier add up to. -/
def ICMPPacket.headerSum : ℕ := p.type.toNat * 256 + p.Code.toNat + p.SequenceNo.toNat + p.ID.toNat

/-- The sum that the loop starts with has lost the carries. -/
theorem toNat_start : ((p.type.toUInt16 <<< 8 ||| p.Code.toUInt16) + (p.SequenceNo + p.ID)).toNat =
    p.headerSum % 2 ^ 16 := by
  have ht := p.type.toNat_lt
  have hc := p.Code.toNat_lt
  have hword : (p.type.toUInt16 <<< 8 ||| p.Code.toUInt16).toNat = p.type.toNat * 256 + p.Code.toNat := by
    have hshift : (8 : UInt16).toNat % 16 = 8 := rfl
    rw [UInt16.toNat_or, UInt16.toNat_shiftLeft, UInt8.toNat_toUInt16, UInt8.toNat_toUInt16, hshift,
      Nat.shiftLeft_eq, Nat.mod_eq_of_lt (by omega), Nat.mul_comm, ← Nat.two_pow_add_eq_or_of_lt hc]
  rw [UInt16.toNat_add, UInt16.toNat_add, hword, ICMPPacket.headerSum]
  omega

/-- The words of the packet with its checksum. -/
theorem beWords_encode (c : UInt16) : beWords { p with Checksum := c }.Encode =
    (p.type.toNat * 256 + p.Code.toNat) :: c.toNat :: p.ID.toNat :: p.SequenceNo.toNat :: beWords p.Data := by
  have hword : beNat [p.type, p.Code] = p.type.toNat * 256 + p.Code.toNat := by
    show p.type.toNat * 256 + (p.Code.toNat * 1 + 0) = _
    omega
  rw [← hword, ← beWords_be16 p.SequenceNo, ← beWords_be16 p.ID, ← beWords_be16 c]
  simp only [ICMPPacket.Encode, List.append_assoc]
  rfl

/-- **The checksum verifies** if and only if the sum of type and code, sequence number and identifier fits in a
word. -/
theorem checksum_iff : Verifies p ↔ p.headerSum < 2 ^ 16 := by
  obtain ⟨hlt, hmod, hzero⟩ := foldl_onesAdd (Nat.mod_lt p.headerSum (Nat.two_pow_pos 16)) (beWords_lt p.Data)
  have hsum : p.ComputeChecksum.toNat + (beWords p.Data).foldl (onesAdd 16) (p.headerSum % 2 ^ 16) = 2 ^ 16 - 1 := by
    have hxor : p.ComputeChecksum =
        ~~~ sumLoop p.Data ((p.type.toUInt16 <<< 8 ||| p.Code.toUInt16) + (p.SequenceNo + p.ID)) := UInt16.neg_one_xor
    have hsize : UInt16.size - 1 = 2 ^ 16 - 1 := rfl
    rw [hxor, UInt16.toNat_not, toNat_sumLoop, toNat_start, hsize]
    omega
  have hwords := beWords_encode p p.ComputeChecksum
  have hlast : (0xFFFF : ℕ) = 2 ^ 16 - 1 := rfl
  rw [Verifies, hlast, foldl_onesAdd_eq_iff (by decide) (beWords_lt _), hwords]
  simp only [List.sum_cons]
  generalize (beWords p.Data).foldl (onesAdd 16) (p.headerSum % 2 ^ 16) = total at *
  generalize (beWords p.Data).sum = data at *
  have ht := p.type.toNat_lt
  have hc := p.Code.toNat_lt
  have hs := p.SequenceNo.toNat_lt
  have hi := p.ID.toNat_lt
  -- The carries that are lost, at most two, are what is missing to a multiple of `2 ^ 16 - 1`.
  have hmod := Nat.ModEq.dvd hmod
  unfold ICMPPacket.headerSum at *
  omega

end Checksum

/-- Identifier and sequence number are both `2 ^ 15`: their carry is lost. -/
theorem carry_lost : ¬ Verifies ⟨8, 0, 0, 0x8000, 0x8000, []⟩ := by decide

/-- The example of the tests. -/
example : (ICMPPacket.mk 0x02 0x44 0 0 0 [0x01, 0x03, 0x04]).ComputeChecksum = 0xf8b8 := by decide

end Csapp.Traceroute
