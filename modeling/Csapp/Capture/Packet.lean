import Csapp.Lib.BigEndian
import Csapp.Lib.Slice

/-!
# Capture.Packet — the packets of `01-packet-capture-ctf`

`ParsePacketRecordHeader`, `ParseEthernet`, `ParseIPv4` and `ParseTCP` on well-formed packets: untagged Ethernet,
IPv4 and TCP headers with any options, and padding behind the datagram.  They find what the headers say, but
since nothing looks at the total length of the datagram, the padding is part of the data (`ParseIPv4_ipBytes`,
`ParseTCP_tcpBytes`).

The slices that are parsed have no spare capacity; `none` is a panic.
-/

namespace Csapp.Capture

open Csapp.Lib

/-! ## The source -/

structure PacketRecord where
  Timestamp : UInt32
  Timestamp2 : UInt32
  CapturedLen : UInt32
  OriginalLen : UInt32
  Data : List UInt8

structure EthernetFrame where
  MACdest : List UInt8
  MACsource : List UInt8
  TPID : List UInt8
  TPIDExtended : Option (List UInt8)
  Data : List UInt8

structure IPv4Packet where
  Version : UInt8
  IHL : UInt8
  DSCP : UInt8
  ECN : UInt8
  TotalLen : UInt16
  Id : UInt16
  Flags : UInt8
  FragmentOffset : UInt16
  TTL : UInt8
  Protocol : UInt8
  HeaderChecksum : UInt16
  SourceIP : UInt32
  DestIP : UInt32
  Data : List UInt8

structure TCPPacket where
  SourcePort : UInt16
  DestPort : UInt16
  SequenceNo : UInt32
  AckNo : UInt32
  DataOffset : UInt8
  Reserved : UInt8
  Flags : UInt8
  WindowSize : UInt16
  Checksum : UInt16
  UrgentPtr : UInt16
  Data : List UInt8

/-- `binary.LittleEndian.Uint32`. -/
def littleUint32 (l : List UInt8) : UInt32 := uint32 l.reverse

/-- The buffer has 16 bytes. -/
def ParsePacketRecordHeader (b : List UInt8) : PacketRecord where
  Timestamp := littleUint32 (b.take 4)
  Timestamp2 := littleUint32 ((b.take 8).drop 4)
  CapturedLen := littleUint32 ((b.take 12).drop 8)
  OriginalLen := littleUint32 ((b.take 16).drop 12)
  Data := []

/-- A slice without spare capacity. -/
abbrev full (data : List UInt8) : Slice UInt8 := ⟨data, []⟩

def ParseEthernet (data : List UInt8) : Option EthernetFrame := do
  let macDest ← (full data).sub 0 6
  let macSource ← (full data).sub 6 12
  let tpid ← (full data).sub 12 14
  let tpid0 ← tpid[0]?
  if tpid0 = 0x81 then do
    let tpidExtended ← (full data).sub 14 16
    let rest ← (full data).sub 16 data.length
    return ⟨macDest, macSource, tpid, some tpidExtended, rest⟩
  else do
    let rest ← (full data).sub 14 data.length
    return ⟨macDest, macSource, tpid, none, rest⟩

def ParseIPv4 (data : List UInt8) : Option IPv4Packet := do
  let b0 ← (full data).get 0
  let b1 ← (full data).get 1
  let totalLen ← (full data).sub 2 4
  let id ← (full data).sub 4 6
  let b6 ← (full data).get 6
  let offset ← (full data).sub 6 8
  let ttl ← (full data).get 8
  let protocol ← (full data).get 9
  let checksum ← (full data).sub 10 12
  let source ← (full data).sub 12 16
  let dest ← (full data).sub 16 20
  let rest ← (full data).sub ((b0 &&& 0x0F) * 4).toNat data.length
  return {
    Version := (b0 &&& 0xF0) >>> 4
    IHL := b0 &&& 0x0F
    DSCP := (b1 &&& 0xFC) >>> 2
    ECN := b1 &&& 0x03
    TotalLen := uint16 totalLen
    Id := uint16 id
    Flags := (b6 &&& 0xE0) >>> 5
    FragmentOffset := uint16 offset &&& 0x1FFF
    TTL := ttl
    Protocol := protocol
    HeaderChecksum := uint16 checksum
    SourceIP := uint32 source
    DestIP := uint32 dest
    Data := rest }

def ParseTCP (data : List UInt8) : Option TCPPacket := do
  let sourcePort ← (full data).sub 0 2
  let destPort ← (full data).sub 2 4
  let sequenceNo ← (full data).sub 4 8
  let ackNo ← (full data).sub 8 12
  let b12 ← (full data).get 12
  let b13 ← (full data).get 13
  let windowSize ← (full data).sub 14 16
  let checksum ← (full data).sub 16 18
  let urgentPtr ← (full data).sub 18 20
  let rest ← (full data).sub (((b12 &&& 0xFF) >>> 4) * 4).toNat data.length
  return {
    SourcePort := uint16 sourcePort
    DestPort := uint16 destPort
    SequenceNo := uint32 sequenceNo
    AckNo := uint32 ackNo
    DataOffset := (b12 &&& 0xFF) >>> 4
    Reserved := b12 &&& 0x0F
    Flags := b13 &&& 0xFF
    WindowSize := uint16 windowSize
    Checksum := uint16 checksum
    UrgentPtr := uint16 urgentPtr
    Data := rest }

/-! ## Well-formed packets -/

/-- Whole words, ten at most. -/
abbrev Options := {l : List UInt8 // l.length % 4 = 0 ∧ l.length ≤ 40}

/-- What a record says apart from the addresses, the sequence number and the payload. -/
structure Header where
  timestamp : UInt32
  timestamp2 : UInt32
  originalLen : UInt32
  macDest : {l : List UInt8 // l.length = 6}
  macSource : {l : List UInt8 // l.length = 6}
  dscpEcn : UInt8
  id : UInt16
  flagsOffset : UInt16
  ttl : UInt8
  protocol : UInt8
  headerChecksum : UInt16
  ipOptions : Options
  sourcePort : UInt16
  destPort : UInt16
  ackNo : UInt32
  flags : UInt8
  windowSize : UInt16
  checksum : UInt16
  urgentPtr : UInt16
  tcpOptions : Options
  padding : {l : List UInt8 // l.length ≤ 46}

/-- The total length of a datagram with so many bytes of payload. -/
def Header.totalLen (h : Header) (n : ℕ) : ℕ := 40 + h.ipOptions.val.length + h.tcpOptions.val.length + n

structure Packet where
  header : Header
  source : UInt32
  dest : UInt32
  seq : UInt32
  payload : List UInt8

def little32 (x : UInt32) : List UInt8 := (be32 x).reverse

namespace Packet

variable (p : Packet)

def tcpHeader : List UInt8 :=
  be16 p.header.sourcePort ++ (be16 p.header.destPort ++ (be32 p.seq ++ (be32 p.header.ackNo ++
    (UInt8.ofNat ((5 + p.header.tcpOptions.val.length / 4) * 16) :: p.header.flags ::
      (be16 p.header.windowSize ++ (be16 p.header.checksum ++ be16 p.header.urgentPtr))))))

def tcpBytes : List UInt8 := p.tcpHeader ++ p.header.tcpOptions.val ++ p.payload

def ipHeader : List UInt8 :=
  UInt8.ofNat (64 + (5 + p.header.ipOptions.val.length / 4)) :: p.header.dscpEcn ::
    (be16 (UInt16.ofNat (p.header.totalLen p.payload.length)) ++ (be16 p.header.id ++
      (be16 p.header.flagsOffset ++ (p.header.ttl :: p.header.protocol :: (be16 p.header.headerChecksum ++
        (be32 p.source ++ be32 p.dest))))))

def ipBytes : List UInt8 := p.ipHeader ++ p.header.ipOptions.val ++ p.tcpBytes

def frameBytes : List UInt8 :=
  p.header.macDest.val ++ (p.header.macSource.val ++ ([8, 0] ++ (p.ipBytes ++ p.header.padding.val)))

def headerBytes : List UInt8 :=
  little32 p.header.timestamp ++ (little32 p.header.timestamp2 ++
    (little32 (UInt32.ofNat p.frameBytes.length) ++ little32 p.header.originalLen))

def recordBytes : List UInt8 := p.headerBytes ++ p.frameBytes

end Packet

/-! ## Parsing them -/

section Words

/-- The length fields of the two headers, for up to ten words of options. -/
theorem words_spec : ∀ w < 11, (UInt8.ofNat (64 + (5 + w)) &&& 0x0F) = UInt8.ofNat (5 + w) ∧
    (UInt8.ofNat (5 + w) * 4).toNat = 20 + 4 * w ∧
    (UInt8.ofNat ((5 + w) * 16) &&& 0xFF) >>> 4 = UInt8.ofNat (5 + w) ∧
    UInt8.ofNat ((5 + w) * 16) &&& 0x0F = 0 := by decide

theorem words_lt (o : Options) : o.val.length / 4 < 11 := by
  have h := o.property.2
  omega

theorem words_mul (o : Options) : 4 * (o.val.length / 4) = o.val.length := by
  have h := o.property.1
  omega

end Words

variable {p : Packet}

theorem at_zero (s t : List UInt8) : (full (s ++ t)).At 0 s := ⟨[], t, rfl, rfl⟩

/-- What follows `s` up to the end. -/
theorem sub_rest {s t : List UInt8} {n : ℕ} (h : s.length = n) :
    (full (s ++ t)).sub n (s ++ t).length = some t := by
  have hat : (full (s ++ t)).At n t := ⟨s, [], by rw [List.append_nil], h⟩
  rw [List.length_append, h]
  exact hat.sub

@[simp] theorem length_tcpHeader (p : Packet) : p.tcpHeader.length = 20 := by simp [Packet.tcpHeader]

@[simp] theorem length_ipHeader (p : Packet) : p.ipHeader.length = 20 := by simp [Packet.ipHeader]

/-- The parser of TCP takes the padding for data. -/
theorem ParseTCP_tcpBytes (p : Packet) (pad : List UInt8) : ParseTCP (p.tcpBytes ++ pad) = some {
    SourcePort := p.header.sourcePort
    DestPort := p.header.destPort
    SequenceNo := p.seq
    AckNo := p.header.ackNo
    DataOffset := UInt8.ofNat (5 + p.header.tcpOptions.val.length / 4)
    Reserved := 0
    Flags := p.header.flags
    WindowSize := p.header.windowSize
    Checksum := p.header.checksum
    UrgentPtr := p.header.urgentPtr
    Data := p.payload ++ pad } := by
  obtain ⟨-, hmul, hoffset, hreserved⟩ := words_spec _ (words_lt p.header.tcpOptions)
  have hsplit : p.tcpBytes ++ pad = p.tcpHeader ++ p.header.tcpOptions.val ++ (p.payload ++ pad) := by
    rw [Packet.tcpBytes, List.append_assoc]
  have hrest := sub_rest (s := p.tcpHeader ++ p.header.tcpOptions.val) (t := p.payload ++ pad)
    (n := 20 + p.header.tcpOptions.val.length) (by rw [List.length_append, length_tcpHeader])
  rw [← words_mul p.header.tcpOptions, ← hmul, ← hsplit] at hrest
  have h0 := at_zero p.tcpHeader (p.header.tcpOptions.val ++ (p.payload ++ pad))
  rw [← List.append_assoc, ← hsplit, Packet.tcpHeader] at h0
  have hseq := h0.right.right
  have hwords := hseq.right.right
  have hwindow := hwords.tail.tail
  have e0 := h0.left.sub
  have e2 := h0.right.left.sub
  have e4 := hseq.left.sub
  have e8 := hseq.right.left.sub
  have e12 := hwords.get
  have e13 := hwords.tail.get
  have e14 := hwindow.left.sub
  have e16 := hwindow.right.left.sub
  have e18 := hwindow.right.right.sub
  simp only [length_be16, length_be32, Nat.zero_add, Nat.reduceAdd] at e0 e2 e4 e8 e12 e13 e14 e16 e18
  simp only [ParseTCP, e0, e2, e4, e8, e12, e13, e14, e16, e18, hoffset, hrest, Option.bind_eq_bind,
    Option.bind_some, uint16_be16, uint32_be32, hreserved]
  rw [show (0xFF : UInt8) = -1 from rfl, UInt8.and_neg_one]
  rfl

/-- The parser of IPv4 finds the addresses, and takes what follows the header for data. -/
theorem ParseIPv4_ipBytes (p : Packet) (pad : List UInt8) : ∃ packet, ParseIPv4 (p.ipBytes ++ pad) = some packet ∧
    packet.SourceIP = p.source ∧ packet.DestIP = p.dest ∧ packet.Data = p.tcpBytes ++ pad := by
  obtain ⟨hihl, hmul, -, -⟩ := words_spec _ (words_lt p.header.ipOptions)
  have hsplit : p.ipBytes ++ pad = p.ipHeader ++ p.header.ipOptions.val ++ (p.tcpBytes ++ pad) := by
    rw [Packet.ipBytes, List.append_assoc]
  have hrest := sub_rest (s := p.ipHeader ++ p.header.ipOptions.val) (t := p.tcpBytes ++ pad)
    (n := 20 + p.header.ipOptions.val.length) (by rw [List.length_append, length_ipHeader])
  rw [← words_mul p.header.ipOptions, ← hmul, ← hsplit] at hrest
  have h0 := at_zero p.ipHeader (p.header.ipOptions.val ++ (p.tcpBytes ++ pad))
  rw [← List.append_assoc, ← hsplit, Packet.ipHeader] at h0
  have h2 := h0.tail.tail
  have h6 := h2.right.right
  have h8 := h6.right
  have h10 := h8.tail.tail
  have e0 := h0.get
  have e1 := h0.tail.get
  have e2 := h2.left.sub
  have e4 := h2.right.left.sub
  have e6 := h6.left.sub
  have e6' := Slice.At.get (x := UInt8.ofNat (p.header.flagsOffset.toNat / 256 ^ 1)) h6
  have e8 := h8.get
  have e9 := h8.tail.get
  have e10 := h10.left.sub
  have e12 := h10.right.left.sub
  have e16 := h10.right.right.sub
  simp only [length_be16, length_be32, Nat.zero_add, Nat.reduceAdd] at e0 e1 e2 e4 e6 e6' e8 e9 e10 e12 e16
  simp only [ParseIPv4, e0, e1, e2, e4, e6, e6', e8, e9, e10, e12, e16, hihl, hrest, Option.bind_eq_bind,
    Option.bind_some, uint16_be16, uint32_be32]
  exact ⟨_, rfl, rfl, rfl, rfl⟩

theorem ParseEthernet_frameBytes (p : Packet) : ∃ frame, ParseEthernet p.frameBytes = some frame ∧
    frame.Data = p.ipBytes ++ p.header.padding.val := by
  have hdest := p.header.macDest.property
  have hsource := p.header.macSource.property
  have h0 := at_zero p.frameBytes []
  rw [List.append_nil, Packet.frameBytes] at h0
  have e0 := h0.left.sub
  have e6 := h0.right.left.sub
  have e12 := h0.right.right.left.sub
  have hrest := sub_rest (s := p.header.macDest.val ++ (p.header.macSource.val ++ [8, 0]))
    (t := p.ipBytes ++ p.header.padding.val) (n := 14) (by simp [hdest, hsource])
  simp only [List.append_assoc] at hrest
  rw [← Packet.frameBytes] at e0 e6 e12 hrest
  simp only [hdest, hsource, List.length_cons, List.length_nil, Nat.zero_add, Nat.reduceAdd] at e0 e6 e12
  have htag : ¬ (8 : UInt8) = 0x81 := by decide
  simp only [ParseEthernet, e0, e6, e12, hrest, Option.bind_eq_bind, Option.bind_some, List.getElem?_cons_zero,
    if_neg htag]
  exact ⟨_, rfl, rfl⟩

end Csapp.Capture
