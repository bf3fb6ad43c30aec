import Csapp.Capture.Packet
import Csapp.Lib.File
import Csapp.Lib.Machine

/-!
# Capture.Modular — the main loop of the modular parser

`main` of `modular-parser`: every round of its loop reads the headers of one record from the file and then
moves the position by what it takes for the rest of the record.  A cycle is one round; `none` is a panic, and a
round that prints an error and returns leaves the error behind.  What `printPacketInfo` prints is left out.

Buffers have their full length, whatever was read, so that no index into one is out of range.
-/

namespace Csapp.Capture.Modular

open Csapp.Lib

/-! ## Headers -/

structure PacketHeader where
  CapturedLen : UInt32
  OriginalLen : UInt32

structure EthernetHeader where
  DestMAC : List UInt8
  SourceMAC : List UInt8
  EtherType : UInt16

structure IPHeader where
  Version : UInt8
  IHL : UInt8
  TotalLength : UInt16
  Protocol : UInt8
  SourceIP : List UInt8
  DestinationIP : List UInt8
  PayloadLength : ℤ

structure TCPHeader where
  SourcePort : UInt16
  DestinationPort : UInt16
  SequenceNumber : UInt32
  HeaderLength : UInt8

structure TCPData where
  SeqNumber : UInt32
  Data : List UInt8
  deriving DecidableEq

def GlobalHeaderSize : ℕ := 24

def PerPacketHeaderSize : ℕ := 16

def EthernetHeaderSize : ℕ := 14

/-- `b[lo:hi]` of a buffer that is long enough. -/
def bytesAt (b : List UInt8) (lo hi : ℕ) : List UInt8 := (b.take hi).drop lo

/-- `b[i]` of a buffer that is long enough. -/
def byteAt (b : List UInt8) (i : ℕ) : UInt8 := b.getD i 0

def skipGlobalHeader (file : File) : File := file.moved GlobalHeaderSize

def readPacketHeader (file : File) : Except FileError (PacketHeader × File) := do
  let (headerData, file) ← file.read PerPacketHeaderSize
  return (⟨littleUint32 (bytesAt headerData 8 12), littleUint32 (bytesAt headerData 12 16)⟩, file)

def readEthernetHeader (file : File) : Except FileError (EthernetHeader × File) := do
  let (headerData, file) ← file.read EthernetHeaderSize
  return (⟨bytesAt headerData 0 6, bytesAt headerData 6 12, uint16 (bytesAt headerData 12 14)⟩, file)

def ipHeaderOf (headerData : List UInt8) : IPHeader where
  Version := byteAt headerData 0 >>> 4
  IHL := byteAt headerData 0 &&& 0x0F
  TotalLength := uint16 (bytesAt headerData 2 4)
  Protocol := byteAt headerData 9
  SourceIP := bytesAt headerData 12 16
  DestinationIP := bytesAt headerData 16 20
  PayloadLength := (uint16 (bytesAt headerData 2 4)).toNat - ((byteAt headerData 0 &&& 0x0F) * 4).toNat

/-- The options of the header are not read. -/
def readIPHeader (file : File) : Except FileError (IPHeader × File) := do
  let (headerData, file) ← file.read 20
  return (ipHeaderOf headerData, file)

/-- `error reading TCP header: …` and `error reading TCP header options: …`. -/
inductive TCPError
  | header (e : FileError)
  | options (e : FileError)
  deriving DecidableEq

def tcpHeaderOf (buffer : List UInt8) : TCPHeader where
  SourcePort := uint16 (bytesAt buffer 0 2)
  DestinationPort := uint16 (bytesAt buffer 2 4)
  SequenceNumber := uint32 (bytesAt buffer 4 8)
  HeaderLength := (byteAt buffer 12 >>> 4) * 4

def parseTCPHeader (file : File) : Except TCPError (TCPHeader × List UInt8 × File) :=
  match file.read 20 with
  | .error e => .error (.header e)
  | .ok (buffer, file) =>
    let header := tcpHeaderOf buffer
    if header.HeaderLength > 20 then
      match file.read (header.HeaderLength - 20).toNat with
      | .error e => .error (.options e)
      | .ok (additionalBytes, file) => .ok (header, buffer ++ additionalBytes, file)
    else .ok (header, buffer, file)

/-! ## The loop -/

/-- What `main` prints before it returns: `Error reading Packet header:`, `Error reading Ethernet header:`,
`Error reading IP header:`, `Error parsing TCP header:`, `Error while skipping remaining data:`. -/
inductive Failure
  | packetHeader (e : FileError)
  | ethernetHeader (e : FileError)
  | ipHeader (e : FileError)
  | tcpHeader (e : TCPError)
  | skip (e : FileError)
  deriving DecidableEq

/-- `started` are the positions at which a packet header was read, for the statements about the loop: the code
does not keep them. -/
structure State where
  file : File
  dataList : List TCPData
  packetCount : ℕ
  started : List ℕ
  failure : Option Failure

def State.fail (s : State) (e : Failure) : State := { s with failure := some e }

/-- `dataList` gets `tcpData` from the header length on. -/
def addTCPData (dataList : List TCPData) (seqNum : UInt32) (data : List UInt8) : List TCPData :=
  dataList ++ [⟨seqNum, data⟩]

/-- The end of a round: the skip of the remaining data. -/
def skipRemaining (s : State) (pHeader : PacketHeader) (ipHeader : IPHeader) (tcpHeader : TCPHeader) :
    Outcome State :=
  let remainingData : ℤ := pHeader.CapturedLen.toNat - EthernetHeaderSize - (ipHeader.IHL * 4).toNat -
    tcpHeader.HeaderLength.toNat
  match s.file.seek remainingData with
  | .error e => .halted (s.fail (.skip e))
  | .ok file => .running { s with file := file, packetCount := s.packetCount + 1 }

/-- The rest of a round of a TCP packet. -/
def tcpRound (s : State) (pHeader : PacketHeader) (ipHeader : IPHeader) : Option (Outcome State) :=
  match parseTCPHeader s.file with
  | .error e => some (.halted (s.fail (.tcpHeader e)))
  | .ok (tcpHeader, tcpData, file) =>
    if tcpHeader.HeaderLength.toNat ≤ tcpData.length then
      let httpData := tcpData.drop tcpHeader.HeaderLength.toNat
      some (skipRemaining
        { s with file := file, dataList := addTCPData s.dataList tcpHeader.SequenceNumber httpData }
        pHeader ipHeader tcpHeader)
    else none

/-- A round behind the packet header.  Where the packet is not TCP, the length of a nil header is read. -/
def round (s : State) (pHeader : PacketHeader) : Option (Outcome State) :=
  match readEthernetHeader s.file with
  | .error e => some (.halted (s.fail (.ethernetHeader e)))
  | .ok (_, file) =>
    match readIPHeader file with
    | .error e => some (.halted (s.fail (.ipHeader e)))
    | .ok (ipHeader, file) =>
      if ipHeader.Protocol = 6 then tcpRound { s with file := file } pHeader ipHeader else none

def cycle (s : State) : Option (Outcome State) :=
  match readPacketHeader s.file with
  | .error .eof => some (.halted s)
  | .error e => some (.halted (s.fail (.packetHeader e)))
  | .ok (pHeader, file) => round { s with file := file, started := s.started ++ [s.file.pos] } pHeader

/-- The state in which the loop starts on a file. -/
def start (content : List UInt8) : State := ⟨skipGlobalHeader ⟨content, 0⟩, [], 0, [], none⟩

/-! ## Records -/

structure Segment where
  sourcePort : UInt16
  destPort : UInt16
  seq : UInt32
  ackNo : UInt32
  reserved : {n : ℕ // n < 16}
  flags : UInt8
  windowSize : UInt16
  checksum : UInt16
  urgentPtr : UInt16
  options : Options
  payload : List UInt8

def Segment.header (t : Segment) : List UInt8 :=
  be16 t.sourcePort ++ (be16 t.destPort ++ (be32 t.seq ++ (be32 t.ackNo ++
    (UInt8.ofNat ((5 + t.options.val.length / 4) * 16 + t.reserved.val) :: t.flags ::
      (be16 t.windowSize ++ (be16 t.checksum ++ be16 t.urgentPtr))))))

inductive Transport
  | tcp (t : Segment)
  | other (protocol : {b : UInt8 // b ≠ 6}) (data : List UInt8)

def Transport.protocol : Transport → UInt8
  | .tcp _ => 6
  | .other protocol _ => protocol.val

def Transport.bytes : Transport → List UInt8
  | .tcp t => t.header ++ t.options.val ++ t.payload
  | .other _ data => data

/-- A frame with an IPv4 datagram, and what may stand behind the datagram. -/
structure Frame where
  macDest : {l : List UInt8 // l.length = 6}
  macSource : {l : List UInt8 // l.length = 6}
  dscpEcn : UInt8
  id : UInt16
  flagsOffset : UInt16
  ttl : UInt8
  headerChecksum : UInt16
  source : UInt32
  dest : UInt32
  ipOptions : Options
  transport : Transport
  padding : List UInt8

namespace Frame

variable (p : Frame)

/-- The header length of the datagram, in words. -/
def ihl : ℕ := 5 + p.ipOptions.val.length / 4

def totalLen : ℕ := 20 + p.ipOptions.val.length + p.transport.bytes.length

def ethernetHeader : List UInt8 := p.macDest.val ++ p.macSource.val ++ [8, 0]

def ipHeader : List UInt8 :=
  UInt8.ofNat (64 + p.ihl) :: p.dscpEcn :: (be16 (UInt16.ofNat p.totalLen) ++ (be16 p.id ++
    (be16 p.flagsOffset ++ (p.ttl :: p.transport.protocol :: (be16 p.headerChecksum ++
      (be32 p.source ++ be32 p.dest))))))

/-- What follows the fixed part of the IP header. -/
def behind : List UInt8 := p.ipOptions.val ++ p.transport.bytes ++ p.padding

def bytes : List UInt8 := p.ethernetHeader ++ (p.ipHeader ++ p.behind)

end Frame

/-- A record with a complete frame. -/
structure Record where
  timestamp : UInt32
  timestamp2 : UInt32
  originalLen : UInt32
  frame : Frame
  total : frame.totalLen < 2 ^ 16
  captured : frame.bytes.length < 2 ^ 32

def Record.header (r : Record) : List UInt8 :=
  little32 r.timestamp ++ (little32 r.timestamp2 ++ (little32 (UInt32.ofNat r.frame.bytes.length) ++
    little32 r.originalLen))

def Record.bytes (r : Record) : List UInt8 := r.header ++ r.frame.bytes

def fileBytes (globalHeader : {l : List UInt8 // l.length = GlobalHeaderSize}) (rs : List Record) : List UInt8 :=
  globalHeader.val ++ rs.flatMap Record.bytes

/-! ## What the loop owes -/

/-- Where the records start, the first of them at `pos`. -/
def offsets : ℕ → List Record → List ℕ
  | _, [] => []
  | pos, r :: rs => pos :: offsets (pos + r.bytes.length) rs

/-- The sequence numbers and payloads of the TCP packets. -/
def entries : List Record → List TCPData
  | [] => []
  | r :: rs =>
    match r.frame.transport with
    | .tcp t => ⟨t.seq, t.payload⟩ :: entries rs
    | .other _ _ => entries rs

/-- The loop ends without a panic and without an error, after one round for every record, from its header, and
with the data of the TCP packets. -/
def Processed (globalHeader : {l : List UInt8 // l.length = GlobalHeaderSize}) (rs : List Record) : Prop :=
  ∃ s, Halts cycle (start (fileBytes globalHeader rs)) s ∧ s.failure = none ∧
    s.started = offsets GlobalHeaderSize rs ∧ s.packetCount = rs.length ∧ s.dataList = entries rs

end Csapp.Capture.Modular
