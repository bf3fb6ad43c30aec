import Csapp.Lib.BigEndian

/-!
# Ydp.Packet — packets of the reliable transport and their encoding

A packet has an ID, flags, a 16-bit length and a message.  `NewYDPPacket` computes the ID from the two
addresses and the time, and takes the length modulo `2 ^ 16`; `DecodeYDPPacket` accepts a datagram whose
length field agrees with its size.
-/

namespace Csapp.Ydp

open Csapp.Lib

structure YDPPacket where
  ID : UInt32
  Flags : UInt8
  Length : UInt16
  Message : List UInt8
  deriving DecidableEq

/-- `unix.SockaddrInet4`. -/
structure SockaddrInet4 where
  Port : ℤ
  Addr : UInt8 × UInt8 × UInt8 × UInt8

def AddrToByteSlice (addr : SockaddrInet4) : List UInt8 :=
  [addr.Addr.1, addr.Addr.2.1, addr.Addr.2.2.1, addr.Addr.2.2.2] ++ be32 (UInt32.ofInt addr.Port)

/-- `fnv.New32`: the 32-bit FNV-1 hash. -/
def Hash32 (hashSrc : List UInt8) : UInt32 :=
  hashSrc.foldl (fun hash b => hash * 16777619 ^^^ b.toUInt32) 2166136261

/-- The bytes of an `int64`. -/
def be64 (x : Int64) : List UInt8 := beBytes 8 x.toUInt64.toNat

/-- `timestamp` is `time.Now().Unix()`. -/
def NewYDPPacket (message : List UInt8) (flags : UInt8) (sourceaddr destaddr : SockaddrInet4)
    (timestamp : Int64) : YDPPacket :=
  ⟨Hash32 (AddrToByteSlice sourceaddr ++ AddrToByteSlice destaddr ++ be64 timestamp), flags,
    UInt16.ofNat message.length, message⟩

def YDPPacket.encode (p : YDPPacket) : List UInt8 := be32 p.ID ++ [p.Flags] ++ be16 p.Length ++ p.Message

inductive DecodeError
  /-- `"incomplete YDP headers"` -/
  | incomplete
  /-- `"message length mismatch in YDP packet"` -/
  | mismatch
  deriving DecidableEq

def DecodeYDPPacket (b : List UInt8) : Except DecodeError YDPPacket :=
  if h : b.length < 7 then .error .incomplete else
  let id := uint32 (b.take 4)
  let flags := b[4]
  let length := uint16 ((b.drop 5).take 2)
  if b.length ≠ length.toNat + 7 then .error .mismatch else .ok ⟨id, flags, length, b.drop 7⟩

/-! ## Encoding and decoding -/

section Codec

variable {p : YDPPacket} {b : List UInt8}

theorem length_encode (p : YDPPacket) : p.encode.length = p.Message.length + 7 := by
  rw [YDPPacket.encode, List.length_append, List.length_append, List.length_append, length_be32, length_be16,
    List.length_singleton, Nat.add_comm]

/-- Every datagram with a full header, taken apart. -/
theorem eq_header (h : ¬ b.length < 7) :
    b = be32 (uint32 (b.take 4)) ++ [b[4]] ++ be16 (uint16 ((b.drop 5).take 2)) ++ b.drop 7 := by
  rw [be32_uint32 (by rw [List.length_take]; omega),
    be16_uint16 (by rw [List.length_take, List.length_drop]; omega)]
  have h1 : b = b.take 4 ++ b.drop 4 := (List.take_append_drop 4 b).symm
  have h2 : b.drop 4 = b[4] :: b.drop 5 := List.drop_eq_getElem_cons (by omega)
  have h3 : b.drop 5 = (b.drop 5).take 2 ++ b.drop 7 := by
    conv_lhs => rw [← List.take_append_drop 2 (b.drop 5), List.drop_drop]
  conv_lhs => rw [h1, h2, h3]
  rw [List.append_assoc, List.append_assoc, List.singleton_append]

/-- The result for the encoding of any packet. -/
theorem decode_encode (p : YDPPacket) : DecodeYDPPacket p.encode =
    if p.Message.length = p.Length.toNat then .ok p else .error .mismatch := by
  have hlen := length_encode p
  have h7 : ¬ p.encode.length < 7 := by omega
  have h1 : uint32 (p.encode.take 4) = p.ID := uint32_be32 p.ID
  have h2 : p.encode[4] = p.Flags := rfl
  have h3 : uint16 ((p.encode.drop 5).take 2) = p.Length := uint16_be16 p.Length
  have h4 : p.encode.drop 7 = p.Message := rfl
  rw [DecodeYDPPacket, dif_neg h7]
  dsimp only
  rw [h1, h2, h3, h4]
  by_cases hm : p.Message.length = p.Length.toNat
  · rw [if_neg (by omega), if_pos hm]
  · rw [if_pos (by omega), if_neg hm]

/-- What a datagram that is accepted encodes. -/
theorem encode_of_decode (h : DecodeYDPPacket b = .ok p) :
    p.encode = b ∧ p.Message.length = p.Length.toNat := by
  rw [DecodeYDPPacket] at h
  by_cases h7 : b.length < 7
  · rw [dif_pos h7] at h
    cases h
  · rw [dif_neg h7] at h
    dsimp only at h
    by_cases hm : b.length ≠ (uint16 ((b.drop 5).take 2)).toNat + 7
    · rw [if_pos hm] at h
      cases h
    · rw [if_neg hm] at h
      obtain rfl := Except.ok.inj h
      refine ⟨(eq_header h7).symm, ?_⟩
      show (b.drop 7).length = _
      rw [List.length_drop]
      dsimp only
      omega

/-- **The accepted datagrams** are the encodings of the packets whose length field is the length of the
message, and encoding the packet gives the datagram back. -/
theorem decode_iff (b : List UInt8) :
    ((∃ p, DecodeYDPPacket b = .ok p) ↔ ∃ p : YDPPacket, p.Length.toNat = p.Message.length ∧ p.encode = b) ∧
      ∀ p, DecodeYDPPacket b = .ok p → p.encode = b := by
  refine ⟨⟨?_, ?_⟩, fun p hp => (encode_of_decode hp).1⟩
  · rintro ⟨p, hp⟩
    obtain ⟨h1, h2⟩ := encode_of_decode hp
    exact ⟨p, h2.symm, h1⟩
  · rintro ⟨p, h1, rfl⟩
    exact ⟨p, by rw [decode_encode, if_pos h1.symm]⟩

/-- **The round trip** of a new packet succeeds exactly for messages of less than `2 ^ 16` bytes; and the
accepted datagrams are the encodings of the packets whose length field is the length of the message. -/
theorem codec_iff (message : List UInt8) (flags : UInt8) (sourceaddr destaddr : SockaddrInet4)
    (timestamp : Int64) (b : List UInt8) :
    let p := NewYDPPacket message flags sourceaddr destaddr timestamp
    ((∃ q, DecodeYDPPacket p.encode = .ok q ∧ q.ID = p.ID ∧ q.Flags = flags ∧ q.Message = message) ↔
        message.length < 2 ^ 16) ∧
      ((∃ q, DecodeYDPPacket b = .ok q) ↔ ∃ q : YDPPacket, q.Length.toNat = q.Message.length ∧ q.encode = b) ∧
      ∀ q, DecodeYDPPacket b = .ok q → q.encode = b := by
  intro p
  obtain ⟨h1, h2⟩ := decode_iff b
  refine ⟨?_, h1, h2⟩
  have hlen : p.Length.toNat = message.length % 2 ^ 16 := UInt16.toNat_ofNat' ..
  have hmessage : p.Message = message := rfl
  rw [decode_encode, hmessage, hlen]
  constructor
  · rintro ⟨q, hq, -⟩
    by_contra hlong
    rw [if_neg] at hq
    · cases hq
    · intro heq
      exact hlong (heq ▸ Nat.mod_lt _ (by decide))
  · intro hlt
    rw [if_pos (Nat.mod_eq_of_lt hlt).symm]
    exact ⟨p, rfl, rfl, rfl, rfl⟩

end Codec

/-! ## Examples -/

def sampleAddr (port : ℤ) : SockaddrInet4 := ⟨port, (0x7f, 0, 0, 1)⟩

example : (NewYDPPacket ("Hi guys".toUTF8.toList) 1 (sampleAddr 5432) (sampleAddr 64403) 0x65157a3a).encode =
    [0x55, 0x2b, 0xae, 0x4a, 0x01, 0x00, 0x07, 0x48, 0x69, 0x20, 0x67, 0x75, 0x79, 0x73] := by
  decide +kernel

/-- A message of `2 ^ 16` bytes has length 0 in its packet. -/
theorem not_codec_sample : ¬ ∃ q, DecodeYDPPacket
    (NewYDPPacket (List.replicate (2 ^ 16) 0) 1 (sampleAddr 5432) (sampleAddr 64403) 0).encode = .ok q := by
  rw [decode_encode, if_neg]
  · rintro ⟨q, hq⟩
    cases hq
  · show ¬ (List.replicate (2 ^ 16) 0).length = (UInt16.ofNat (List.replicate (2 ^ 16) 0).length).toNat
    rw [List.length_replicate]
    decide

end Csapp.Ydp
