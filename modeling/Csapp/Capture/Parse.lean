import Csapp.Lib.Firsts
import Csapp.Capture.Packet

/-!
# Capture.Parse — `Parse` on the records of a capture file

`Parse` takes the destination of the first record for the server and keeps, of the packets that the server
sends, the first one with each sequence number, other than those with exactly the flags SYN and ACK.  The data of
these packets are joined in the order of their sequence numbers (`parse_records`).

Reads of the file fill the buffer while there is enough left.  No two of the packets that are sorted have the
same sequence number, so that it does not matter which sort `sort.Slice` is.
-/

namespace Csapp.Capture

open Csapp.Lib

/-! ## The source -/

/-- The loop of `Parse`; the file is what is left to read. -/
def parseLoop : ℕ → List UInt8 → List UInt8 → UInt32 → List UInt32 → List TCPPacket → Option (List TCPPacket)
  | 0, _, _, _, _, _ => none
  | fuel + 1, file, headerBuf, serverIP, sequenceNoMap, tcpPackets =>
    if file = [] then some tcpPackets
    else
      let headerBuf := readInto (file.take 16) headerBuf
      let file := file.drop 16
      let capturedLen := (ParsePacketRecordHeader headerBuf).CapturedLen.toNat
      if file = [] ∧ 0 < capturedLen then some tcpPackets
      else do
        let data := readInto (file.take capturedLen) (List.replicate capturedLen 0)
        let file := file.drop capturedLen
        let ethernetFrame ← ParseEthernet data
        let ipDatagram ← ParseIPv4 ethernetFrame.Data
        let serverIP := if serverIP = 0 then ipDatagram.DestIP else serverIP
        if ipDatagram.SourceIP = serverIP then do
          let tcpPacket ← ParseTCP ipDatagram.Data
          if tcpPacket.SequenceNo ∉ sequenceNoMap ∧ tcpPacket.Flags ≠ 0x12 then
            parseLoop fuel file headerBuf serverIP (tcpPacket.SequenceNo :: sequenceNoMap) (tcpPackets ++ [tcpPacket])
          else parseLoop fuel file headerBuf serverIP sequenceNoMap tcpPackets
        else parseLoop fuel file headerBuf serverIP sequenceNoMap tcpPackets

/-- The comparison of the sort: not greater. -/
def notAfter (a b : TCPPacket) : Bool := !decide (b.SequenceNo < a.SequenceNo)

def Parse (file : List UInt8) : Option (List UInt8) := do
  let tcpPackets ← parseLoop (file.length + 1) (file.drop 24) (List.replicate 16 0) 0 [] []
  return (tcpPackets.mergeSort notAfter).flatMap TCPPacket.Data

/-! ## One record -/

/-- The datagram is not longer than its length field can say. -/
def Packet.Fits (p : Packet) : Prop := p.header.totalLen p.payload.length ≤ 65535

/-- What `ParseTCP` returns for the packet. -/
def Packet.tcpPacket (p : Packet) : TCPPacket where
  SourcePort := p.header.sourcePort
  DestPort := p.header.destPort
  SequenceNo := p.seq
  AckNo := p.header.ackNo
  DataOffset := UInt8.ofNat (5 + p.header.tcpOptions.val.length / 4)
  Reserved := 0
  Flags := p.header.flags
  WindowSize := p.header.windowSize
  Checksum := p.header.checksum
  UrgentPtr := p.header.urgentPtr
  Data := p.payload ++ p.header.padding.val

@[simp] theorem tcpPacket_SequenceNo (p : Packet) : p.tcpPacket.SequenceNo = p.seq := rfl

section Record

variable {p : Packet}

theorem length_ipBytes (p : Packet) : p.ipBytes.length = p.header.totalLen p.payload.length := by
  simp only [Packet.ipBytes, Packet.tcpBytes, Header.totalLen, List.length_append, length_ipHeader, length_tcpHeader]
  omega

theorem length_frameBytes_lt (h : p.Fits) : p.frameBytes.length < 2 ^ 32 := by
  have hdest := p.header.macDest.property
  have hsource := p.header.macSource.property
  have hpad := p.header.padding.property
  rw [Packet.Fits] at h
  simp only [Packet.frameBytes, List.length_append, hdest, hsource, length_ipBytes, List.length_cons,
    List.length_nil]
  omega

@[simp] theorem length_little32 (x : UInt32) : (little32 x).length = 4 := by
  rw [little32, List.length_reverse, length_be32]

@[simp] theorem littleUint32_little32 (x : UInt32) : littleUint32 (little32 x) = x := by
  rw [littleUint32, little32, List.reverse_reverse, uint32_be32]

@[simp] theorem length_headerBytes (p : Packet) : p.headerBytes.length = 16 := by simp [Packet.headerBytes]

theorem capturedLen_headerBytes (h : p.Fits) :
    (ParsePacketRecordHeader p.headerBytes).CapturedLen.toNat = p.frameBytes.length := by
  have hslice : (p.headerBytes.take 12).drop 8 = little32 (UInt32.ofNat p.frameBytes.length) := by
    rw [List.drop_take, Packet.headerBytes, ← List.append_assoc, List.drop_left' (by simp)]
    exact List.take_left' (length_little32 _)
  show (littleUint32 ((p.headerBytes.take 12).drop 8)).toNat = _
  rw [hslice, littleUint32_little32]
  exact UInt32.toNat_ofNat_of_lt' (length_frameBytes_lt h)

/-- One round of the loop. -/
theorem parseLoop_record (h : p.Fits) (fuel : ℕ) (rest : List UInt8) {headerBuf : List UInt8}
    (hbuf : headerBuf.length = 16) (serverIP : UInt32) (sequenceNoMap : List UInt32) (tcpPackets : List TCPPacket) :
    parseLoop (fuel + 1) (p.recordBytes ++ rest) headerBuf serverIP sequenceNoMap tcpPackets =
      if p.source = (if serverIP = 0 then p.dest else serverIP) then
        if p.seq ∉ sequenceNoMap ∧ p.header.flags ≠ 0x12 then
          parseLoop fuel rest p.headerBytes (if serverIP = 0 then p.dest else serverIP) (p.seq :: sequenceNoMap)
            (tcpPackets ++ [p.tcpPacket])
        else parseLoop fuel rest p.headerBytes (if serverIP = 0 then p.dest else serverIP) sequenceNoMap tcpPackets
      else parseLoop fuel rest p.headerBytes (if serverIP = 0 then p.dest else serverIP) sequenceNoMap tcpPackets := by
  have hne : p.recordBytes ++ rest ≠ [] := by
    apply List.length_pos_iff.mp
    rw [Packet.recordBytes, List.length_append, List.length_append, length_headerBytes]
    omega
  have hframe : p.frameBytes ≠ [] := by
    apply List.length_pos_iff.mp
    simp only [Packet.frameBytes, List.length_append, p.header.macDest.property]
    omega
  have htake : (p.recordBytes ++ rest).take 16 = p.headerBytes := by
    rw [Packet.recordBytes, List.append_assoc]
    exact List.take_left' (length_headerBytes p)
  have hdrop : (p.recordBytes ++ rest).drop 16 = p.frameBytes ++ rest := by
    rw [Packet.recordBytes, List.append_assoc]
    exact List.drop_left' (length_headerBytes p)
  have hheader : readInto p.headerBytes headerBuf = p.headerBytes :=
    readInto_full (by rw [hbuf, length_headerBytes])
  have hdata : readInto p.frameBytes (List.replicate p.frameBytes.length 0) = p.frameBytes :=
    readInto_full List.length_replicate
  obtain ⟨frame, h1, h2⟩ := ParseEthernet_frameBytes p
  obtain ⟨packet, h3, h4, h5, h6⟩ := ParseIPv4_ipBytes p p.header.padding.val
  rw [parseLoop, if_neg hne, htake, hdrop, hheader]
  dsimp only
  rw [capturedLen_headerBytes h, List.take_left, List.drop_left, hdata,
    if_neg fun hand => hframe (List.append_eq_nil_iff.mp hand.1).1]
  simp only [h1, h2, h3, h4, h5, h6, ParseTCP_tcpBytes, Option.bind_eq_bind, Option.bind_some]
  rfl

end Record

/-! ## All records -/

/-- The packets that may be kept. -/
def fromServer (server : UInt32) (packets : List Packet) : List TCPPacket :=
  (packets.filter fun p => p.source = server ∧ p.header.flags ≠ 0x12).map Packet.tcpPacket

theorem fromServer_cons (server : UInt32) (p : Packet) (packets : List Packet) : fromServer server (p :: packets) =
    if p.source = server ∧ p.header.flags ≠ 0x12 then p.tcpPacket :: fromServer server packets
    else fromServer server packets := by
  rw [fromServer, List.filter_cons]
  by_cases h : p.source = server ∧ p.header.flags ≠ 0x12
  · rw [if_pos (decide_eq_true h), if_pos h]
    rfl
  · rw [if_neg (by simpa using h), if_neg h]
    rfl

/-- Once the server is known, the loop keeps the first packet with each sequence number. -/
theorem parseLoop_records {server : UInt32} (hs : server ≠ 0) : ∀ (packets : List Packet) (fuel : ℕ)
    (headerBuf : List UInt8) (sequenceNoMap : List UInt32) (tcpPackets : List TCPPacket),
    (∀ p ∈ packets, p.Fits) → packets.length < fuel → headerBuf.length = 16 →
      parseLoop fuel (packets.flatMap Packet.recordBytes) headerBuf server sequenceNoMap tcpPackets =
        some (tcpPackets ++ firsts TCPPacket.SequenceNo sequenceNoMap (fromServer server packets))
  | [], fuel + 1, headerBuf, sequenceNoMap, tcpPackets, _, _, _ => by
    rw [List.flatMap_nil, parseLoop, if_pos rfl]
    exact congrArg some (List.append_nil _).symm
  | p :: packets, fuel + 1, headerBuf, sequenceNoMap, tcpPackets, hfits, hfuel, hbuf => by
    have ih := fun seqs kept => parseLoop_records hs packets fuel p.headerBytes seqs kept
      (fun q hq => hfits q (List.mem_cons_of_mem p hq)) (Nat.lt_of_succ_lt_succ hfuel) (length_headerBytes p)
    rw [List.flatMap_cons, parseLoop_record (hfits p List.mem_cons_self) fuel _ hbuf, if_neg hs, fromServer_cons,
      ih, ih]
    by_cases hsource : p.source = server
    · by_cases hflags : p.header.flags = 0x12
      · rw [if_pos hsource, if_neg fun hand => hand.2 hflags, if_neg fun hand => hand.2 hflags]
      · have hserver : p.source = server ∧ p.header.flags ≠ 0x12 := ⟨hsource, hflags⟩
        rw [if_pos hsource, if_pos hserver, firsts, tcpPacket_SequenceNo]
        by_cases hseq : p.seq ∈ sequenceNoMap
        · rw [if_neg fun hand => hand.1 hseq, if_pos hseq]
        · rw [if_pos ⟨hseq, hflags⟩, if_neg hseq, List.append_assoc]
          rfl
    · rw [if_neg hsource, if_neg fun hand => hsource hand.1]

theorem length_le_recordBytes (packets : List Packet) :
    packets.length ≤ (packets.flatMap Packet.recordBytes).length := by
  induction packets with
  | nil => exact le_rfl
  | cons p packets ih =>
    rw [List.flatMap_cons, List.length_append, List.length_cons, Packet.recordBytes, List.length_append,
      length_headerBytes]
    omega

/-- **`Parse`** on a file whose first record goes to the server. -/
theorem parse_records {pcapHeader : List UInt8} (hpcap : pcapHeader.length = 24) {server : UInt32}
    (hs : server ≠ 0) {first : Packet} (hdest : first.dest = server) (hsource : first.source ≠ server)
    {packets : List Packet} (hfits : ∀ p ∈ first :: packets, p.Fits) :
    Parse (pcapHeader ++ (first :: packets).flatMap Packet.recordBytes) =
      some (((firsts TCPPacket.SequenceNo [] (fromServer server packets)).mergeSort notAfter).flatMap
        TCPPacket.Data) := by
  have hlen := length_le_recordBytes packets
  have hfuel : packets.length < (pcapHeader ++ (first :: packets).flatMap Packet.recordBytes).length := by
    rw [List.length_append, List.flatMap_cons, List.length_append, hpcap]
    omega
  rw [Parse, List.drop_left' hpcap, List.flatMap_cons,
    parseLoop_record (hfits first List.mem_cons_self) _ _ List.length_replicate, if_pos rfl, hdest,
    if_neg hsource]
  rw [List.flatMap_cons] at hfuel
  rw [parseLoop_records hs packets _ _ [] [] (fun p hp => hfits p (List.mem_cons_of_mem first hp)) hfuel
    (length_headerBytes first)]
  rfl

end Csapp.Capture
