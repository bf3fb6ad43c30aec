import Csapp.Capture.Modular
import Csapp.Capture.Parse

/-!
# Capture.ModularRound — one round of the modular parser

What a round does at the header of a record (`cycle_record`), and what every round does (`cycle_grow`).  The
packet header, the Ethernet header and the fixed part of the IP header are read as they stand.  What is taken
for the TCP header are the 20 bytes behind them, options of the datagram included, and the skip counts the
options of the datagram although they have not been read.
-/

namespace Csapp.Capture.Modular

open Csapp.Lib

/-! ## Buffers -/

theorem bytesAt_of_at {b s : List UInt8} {l u : ℕ} (h : (full b).At l s) (hu : u = l + s.length) :
    bytesAt b l u = s := by
  have hsub := h.sub
  rw [Slice.sub, List.append_nil, ← hu] at hsub
  exact Option.some.inj (Option.ite_none_right_eq_some.mp hsub).2

theorem byteAt_of_at {b s : List UInt8} {i : ℕ} {x : UInt8} (h : (full b).At i (x :: s)) : byteAt b i = x := by
  rw [byteAt, List.getD_eq_getElem?_getD]
  have hget : b[i]? = some x := h.get
  rw [hget, Option.getD_some]

@[simp] theorem length_record_header (r : Record) : r.header.length = 16 := by
  simp [Record.header, little32]

@[simp] theorem length_ethernetHeader (p : Frame) : p.ethernetHeader.length = 14 := by
  simp [Frame.ethernetHeader, p.macDest.property, p.macSource.property]

@[simp] theorem length_frame_ipHeader (p : Frame) : p.ipHeader.length = 20 := by
  simp [Frame.ipHeader]

@[simp] theorem length_segment_header (t : Segment) : t.header.length = 20 := by
  simp [Segment.header]

theorem length_record (r : Record) : r.bytes.length = 50 + r.frame.behind.length := by
  simp only [Record.bytes, Frame.bytes, List.length_append, length_record_header, length_ethernetHeader,
    length_frame_ipHeader]
  omega

/-! ## The headers of a record -/

theorem readPacketHeader_record {f : File} {r : Record} {t : List UInt8} (h : f.rest = r.header ++ t) :
    readPacketHeader f =
      .ok (⟨UInt32.ofNat r.frame.bytes.length, r.originalLen⟩, f.moved (f.pos + 16)) := by
  have hread := File.read_full h (length_record_header r) (by decide)
  have h0 := at_zero r.header []
  rw [List.append_nil, Record.header] at h0
  have h8 := h0.right.right
  have hcaptured := bytesAt_of_at (b := r.header) (u := 12) h8.left rfl
  have horiginal := bytesAt_of_at (b := r.header) (u := 16) h8.right rfl
  simp only [length_little32, Nat.zero_add, Nat.reduceAdd] at hcaptured horiginal
  simp only [readPacketHeader, PerPacketHeaderSize, hread, bind, Except.bind, hcaptured, horiginal,
    littleUint32_little32]
  rfl

theorem readEthernetHeader_frame {f : File} {p : Frame} {t : List UInt8} (h : f.rest = p.ethernetHeader ++ t) :
    ∃ eHeader, readEthernetHeader f = .ok (eHeader, f.moved (f.pos + 14)) := by
  have hread := File.read_full h (length_ethernetHeader p) (by decide)
  simp only [readEthernetHeader, EthernetHeaderSize, hread, bind, Except.bind]
  exact ⟨_, rfl⟩

theorem readIPHeader_frame {f : File} {p : Frame} {t : List UInt8} (h : f.rest = p.ipHeader ++ t) :
    readIPHeader f = .ok (ipHeaderOf p.ipHeader, f.moved (f.pos + 20)) := by
  have hread := File.read_full h (length_frame_ipHeader p) (by decide)
  simp only [readIPHeader, hread, bind, Except.bind]
  rfl

theorem ipHeaderOf_protocol (p : Frame) : (ipHeaderOf p.ipHeader).Protocol = p.transport.protocol := by
  have h0 := at_zero p.ipHeader []
  rw [List.append_nil, Frame.ipHeader] at h0
  have h8 := h0.tail.tail.right.right.right
  exact byteAt_of_at (b := p.ipHeader) h8.tail

theorem ipHeaderOf_ihl (p : Frame) : ((ipHeaderOf p.ipHeader).IHL * 4).toNat = 4 * p.ihl := by
  obtain ⟨hihl, hmul, -, -⟩ := words_spec _ (words_lt p.ipOptions)
  show ((UInt8.ofNat (64 + p.ihl) &&& 0x0F) * 4).toNat = _
  rw [Frame.ihl, hihl, hmul]
  omega

/-! ## What is taken for the TCP header -/

/-- The header length in the twenty bytes. -/
def takenLen (w : List UInt8) : ℕ := 4 * ((byteAt w 12).toNat / 16)

theorem headerLength_toNat (w : List UInt8) : (tcpHeaderOf w).HeaderLength.toNat = takenLen w := by
  show ((byteAt w 12 >>> 4) * 4).toNat = 4 * ((byteAt w 12).toNat / 16)
  have hlt := (byteAt w 12).toNat_lt
  rw [UInt8.toNat_mul, UInt8.toNat_shiftRight]
  simp only [UInt8.reduceToNat, Nat.reduceMod, Nat.shiftRight_eq_div_pow, Nat.reducePow]
  omega

theorem takenLen_le (w : List UInt8) : takenLen w ≤ 60 := by
  have hlt := (byteAt w 12).toNat_lt
  rw [takenLen]
  omega

section TCP

variable {f : File} {w t : List UInt8} (h : f.rest = w ++ t) (hw : w.length = 20)
include h hw

theorem parseTCPHeader_short (hlen : takenLen w ≤ 20) :
    parseTCPHeader f = .ok (tcpHeaderOf w, w, f.moved (f.pos + 20)) := by
  have hread := File.read_full h hw (by decide)
  have hle : ¬ (tcpHeaderOf w).HeaderLength > 20 := by
    rw [gt_iff_lt, UInt8.lt_iff_toNat_lt, headerLength_toNat]
    exact Nat.not_lt.mpr hlen
  simp only [parseTCPHeader, hread, if_neg hle]

theorem parseTCPHeader_eof (hlen : 20 < takenLen w) (ht : t = []) :
    parseTCPHeader f = .error (.options .eof) := by
  have hread := File.read_full h hw (by decide)
  have hgt : (tcpHeaderOf w).HeaderLength > 20 := by
    rw [gt_iff_lt, UInt8.lt_iff_toNat_lt, headerLength_toNat]
    exact hlen
  have hmore : (f.moved (f.pos + 20)).read ((tcpHeaderOf w).HeaderLength - 20).toNat = .error .eof := by
    refine File.read_eof ?_ ?_
    · rw [← hw, File.rest_moved h, ht]
    · rw [UInt8.toNat_sub_of_le _ _ (UInt8.le_of_lt hgt), headerLength_toNat]
      exact (Nat.sub_pos_of_lt hlen).ne'
  simp only [parseTCPHeader, hread, if_pos hgt, hmore]

/-- Where there are options to read, the bytes that are missing at the end of the file are zeros. -/
theorem parseTCPHeader_long (hlen : 20 < takenLen w) (ht : t ≠ []) :
    ∃ b, b.length = takenLen w ∧ parseTCPHeader f =
      .ok (tcpHeaderOf w, b, f.moved (f.pos + 20 + min (takenLen w - 20) t.length)) := by
  have hread := File.read_full h hw (by decide)
  have hgt : (tcpHeaderOf w).HeaderLength > 20 := by
    rw [gt_iff_lt, UInt8.lt_iff_toNat_lt, headerLength_toNat]
    exact hlen
  have hrest : (f.moved (f.pos + 20)).rest = t := by rw [← hw, File.rest_moved h]
  have hsub : ((tcpHeaderOf w).HeaderLength - 20).toNat = takenLen w - 20 := by
    rw [UInt8.toNat_sub_of_le _ _ (UInt8.le_of_lt hgt), headerLength_toNat]
    rfl
  obtain ⟨b, hb, hmore⟩ := File.read_rest (f := f.moved (f.pos + 20)) (by rwa [hrest]) (takenLen w - 20)
  rw [hrest] at hmore
  refine ⟨w ++ b, ?_, ?_⟩
  · rw [List.length_append, hw, hb]
    omega
  · simp only [parseTCPHeader, hread, if_pos hgt, hsub, hmore]
    rfl

end TCP

/-! ## A round at a record -/

/-- The state after a round that has moved the position to `pos`. -/
def State.next (s : State) (pos : ℕ) (d : TCPData) : State where
  file := s.file.moved pos
  dataList := s.dataList ++ [d]
  packetCount := s.packetCount + 1
  started := s.started ++ [s.file.pos]
  failure := s.failure

/-- The twenty bytes that the loop takes for the TCP header. -/
def Frame.taken (p : Frame) : List UInt8 := p.behind.take 20

/-- The skip adds up what it takes for the lengths of the headers. -/
theorem skipRemaining_record {s : State} {r : Record} {tcpHeader : TCPHeader} {q : ℕ}
    (hq : q + 14 + 4 * r.frame.ihl + tcpHeader.HeaderLength.toNat = s.file.pos + r.frame.bytes.length) :
    skipRemaining s ⟨UInt32.ofNat r.frame.bytes.length, r.originalLen⟩ (ipHeaderOf r.frame.ipHeader) tcpHeader =
      .running { s with file := s.file.moved q, packetCount := s.packetCount + 1 } := by
  have hcaptured : (UInt32.ofNat r.frame.bytes.length).toNat = r.frame.bytes.length :=
    UInt32.toNat_ofNat_of_lt' r.captured
  have hseek : s.file.seek (((UInt32.ofNat r.frame.bytes.length).toNat : ℤ) - EthernetHeaderSize -
      ((ipHeaderOf r.frame.ipHeader).IHL * 4).toNat - tcpHeader.HeaderLength.toNat) = .ok (s.file.moved q) := by
    refine File.seek_eq ?_
    rw [hcaptured, ipHeaderOf_ihl, EthernetHeaderSize]
    omega
  simp only [skipRemaining, hseek]

section Record

variable {s : State} {r : Record} {tail : List UInt8} (h : s.file.rest = r.bytes ++ tail)
include h

/-- The three headers are read; the rest of the round depends on the protocol. -/
theorem cycle_record : cycle s =
    if r.frame.transport.protocol = 6 then
      tcpRound { s with file := s.file.moved (s.file.pos + 50), started := s.started ++ [s.file.pos] }
        ⟨UInt32.ofNat r.frame.bytes.length, r.originalLen⟩ (ipHeaderOf r.frame.ipHeader)
    else none := by
  rw [Record.bytes, Frame.bytes, List.append_assoc, List.append_assoc, List.append_assoc] at h
  have h16 := File.rest_moved h
  rw [length_record_header] at h16
  have h30 := File.rest_moved h16
  rw [length_ethernetHeader] at h30
  obtain ⟨eHeader, hether⟩ := readEthernetHeader_frame h16
  have hip := readIPHeader_frame h30
  simp only [cycle, readPacketHeader_record h, round, hether, hip, ipHeaderOf_protocol]
  rfl

/-- A packet of another protocol is the end of it. -/
theorem cycle_other (hp : r.frame.transport.protocol ≠ 6) : cycle s = none := by
  rw [cycle_record h, if_neg hp]

theorem rest_taken : (s.file.moved (s.file.pos + 50)).rest =
    r.frame.taken ++ (r.frame.behind.drop 20 ++ tail) := by
  have hsplit : r.bytes ++ tail = (r.header ++ (r.frame.ethernetHeader ++ r.frame.ipHeader)) ++
      (r.frame.behind ++ tail) := by
    simp only [Record.bytes, Frame.bytes, List.append_assoc]
  rw [hsplit] at h
  have hrest := File.rest_moved h
  simp only [List.length_append, length_record_header, length_ethernetHeader, length_frame_ipHeader] at hrest
  rw [hrest, Frame.taken, ← List.append_assoc, List.take_append_drop]

section TCP

variable (hp : r.frame.transport.protocol = 6) (hw : r.frame.taken.length = 20)
include hp hw

/-- No options are read behind the twenty bytes. -/
theorem cycle_short (hlen : takenLen r.frame.taken ≤ 20) {q : ℕ}
    (hq : q + 4 * r.frame.ihl + takenLen r.frame.taken = s.file.pos + r.bytes.length + 40) :
    cycle s = some (.running (s.next q
      ⟨uint32 (bytesAt r.frame.taken 4 8), r.frame.taken.drop (takenLen r.frame.taken)⟩)) := by
  have hparse := parseTCPHeader_short (rest_taken h) hw hlen
  have hbytes : r.bytes.length = 16 + r.frame.bytes.length := by
    rw [Record.bytes, List.length_append, length_record_header]
  rw [cycle_record h, if_pos hp, tcpRound]
  simp only [hparse, headerLength_toNat, hw, if_pos hlen]
  rw [skipRemaining_record (q := q)]
  · rfl
  · rw [headerLength_toNat]
    show _ = s.file.pos + 50 + 20 + _
    omega

/-- What is read behind the twenty bytes counts as header: there is no data. -/
theorem cycle_long (hlen : 20 < takenLen r.frame.taken) (hrest : r.frame.behind.drop 20 ++ tail ≠ []) {q : ℕ}
    (hq : q + 4 * r.frame.ihl + takenLen r.frame.taken = s.file.pos + r.bytes.length + 40 +
      min (takenLen r.frame.taken - 20) (r.frame.behind.drop 20 ++ tail).length) :
    cycle s = some (.running (s.next q ⟨uint32 (bytesAt r.frame.taken 4 8), []⟩)) := by
  obtain ⟨b, hb, hparse⟩ := parseTCPHeader_long (rest_taken h) hw hlen hrest
  have hbytes : r.bytes.length = 16 + r.frame.bytes.length := by
    rw [Record.bytes, List.length_append, length_record_header]
  have hnil : b.drop (takenLen r.frame.taken) = [] := List.drop_of_length_le (le_of_eq hb)
  rw [cycle_record h, if_pos hp, tcpRound]
  simp only [hparse, headerLength_toNat, hb, le_refl, if_true, hnil]
  rw [skipRemaining_record (q := q)]
  · rfl
  · rw [headerLength_toNat]
    show _ = s.file.pos + 50 + 20 + _ + _
    omega

theorem cycle_eof (hlen : 20 < takenLen r.frame.taken) (hrest : r.frame.behind.drop 20 ++ tail = []) :
    ∃ s', cycle s = some (.halted s') ∧ s'.failure ≠ none := by
  have hparse := parseTCPHeader_eof (rest_taken h) hw hlen hrest
  rw [cycle_record h, if_pos hp, tcpRound]
  simp only [hparse]
  exact ⟨_, rfl, Option.some_ne_none _⟩

end TCP

end Record

/-! ## Packets -/

section Packets

variable {p : Frame} {t : Segment} (ht : p.transport = .tcp t)
include ht

theorem length_taken : p.taken.length = 20 := by
  have hbehind : 20 ≤ p.behind.length := by
    rw [Frame.behind, ht, Transport.bytes]
    simp only [List.length_append, length_segment_header]
    omega
  rw [Frame.taken, List.length_take]
  omega

/-- Without options in the IP header the TCP header is where the loop looks for it. -/
theorem taken_header (hopt : p.ipOptions.val = []) :
    p.taken = t.header ∧ p.behind.drop 20 = t.options.val ++ (t.payload ++ p.padding) := by
  have hsplit : p.behind = t.header ++ (t.options.val ++ (t.payload ++ p.padding)) := by
    rw [Frame.behind, hopt, ht, Transport.bytes, List.nil_append, List.append_assoc, List.append_assoc]
  rw [Frame.taken, hsplit, ← length_segment_header t]
  exact ⟨List.take_left, List.drop_left⟩

end Packets

theorem reserved_spec : ∀ w < 11, ∀ r < 16, (UInt8.ofNat ((5 + w) * 16 + r)).toNat / 16 = 5 + w := by
  intro w hw r hr
  rw [UInt8.toNat_ofNat']
  omega

theorem takenLen_header (t : Segment) : takenLen t.header = 20 + t.options.val.length := by
  have h0 := at_zero t.header []
  rw [List.append_nil, Segment.header] at h0
  have h12 := byteAt_of_at (b := t.header) h0.right.right.right.right
  simp only [length_be16, length_be32, Nat.zero_add, Nat.reduceAdd] at h12
  rw [takenLen, h12, reserved_spec _ (words_lt t.options) _ t.reserved.property, Nat.mul_add,
    words_mul t.options]

theorem seq_header (t : Segment) : uint32 (bytesAt t.header 4 8) = t.seq := by
  have h0 := at_zero t.header []
  rw [List.append_nil, Segment.header] at h0
  have h4 := bytesAt_of_at (b := t.header) (u := 8) h0.right.right.left rfl
  simp only [length_be16, Nat.zero_add, Nat.reduceAdd] at h4
  rw [h4, uint32_be32]

/-- **Without IP options**, a round ends at the end of the record, with the right sequence number and without
the payload. -/
theorem cycle_plain {s : State} {r : Record} {t : Segment} {tail : List UInt8} (h : s.file.rest = r.bytes ++ tail)
    (ht : r.frame.transport = .tcp t) (hopt : r.frame.ipOptions.val = []) :
    cycle s = some (.running (s.next (s.file.pos + r.bytes.length) ⟨t.seq, []⟩)) := by
  obtain ⟨htaken, hbehind⟩ := taken_header ht hopt
  have hp : r.frame.transport.protocol = 6 := by rw [ht]; rfl
  have hw := length_taken ht
  have hihl : r.frame.ihl = 5 := by rw [Frame.ihl, hopt]; rfl
  have hlen : takenLen r.frame.taken = 20 + t.options.val.length := by rw [htaken, takenLen_header]
  have hseq : uint32 (bytesAt r.frame.taken 4 8) = t.seq := by rw [htaken, seq_header]
  by_cases hnone : t.options.val = []
  · have hdrop : r.frame.taken.drop (takenLen r.frame.taken) = [] := by
      rw [hlen, hnone]
      exact List.drop_of_length_le (le_of_eq hw)
    rw [hnone, List.length_nil] at hlen
    rw [cycle_short h hp hw (by omega) (q := s.file.pos + r.bytes.length) (by omega), hseq, hdrop]
  · have hpos := List.length_pos_iff.mpr hnone
    have hmin : min (takenLen r.frame.taken - 20) (r.frame.behind.drop 20 ++ tail).length =
        t.options.val.length := by
      rw [hbehind, List.append_assoc, List.length_append]
      omega
    have hrest : r.frame.behind.drop 20 ++ tail ≠ [] := by
      rw [hbehind, List.append_assoc]
      exact List.append_ne_nil_of_left_ne_nil hnone _
    rw [cycle_long h hp hw (by omega) hrest (q := s.file.pos + r.bytes.length) (by rw [hmin]; omega), hseq]

/-- **With IP options**, the loop takes other bytes for the TCP header.  Where it reads more than the twenty
bytes, it ends in front of the next record, if it does not end the loop. -/
theorem cycle_options {s : State} {r : Record} {t : Segment} {tail : List UInt8}
    (h : s.file.rest = r.bytes ++ tail) (ht : r.frame.transport = .tcp t) (hopt : r.frame.ipOptions.val ≠ []) :
    (∃ s', cycle s = some (.halted s') ∧ s'.failure ≠ none) ∨
      ∃ q d, cycle s = some (.running (s.next q d)) ∧
        ((takenLen r.frame.taken ≤ 20 ∧
            q + 4 * r.frame.ihl + takenLen r.frame.taken = s.file.pos + r.bytes.length + 40 ∧
            d = ⟨uint32 (bytesAt r.frame.taken 4 8), r.frame.taken.drop (takenLen r.frame.taken)⟩) ∨
          (20 < takenLen r.frame.taken ∧ q < s.file.pos + r.bytes.length)) := by
  have hp : r.frame.transport.protocol = 6 := by rw [ht]; rfl
  have hw := length_taken ht
  have hle := takenLen_le r.frame.taken
  have hihl : 4 * r.frame.ihl = 20 + r.frame.ipOptions.val.length := by
    have hmul := words_mul r.frame.ipOptions
    rw [Frame.ihl]
    omega
  have hpos := List.length_pos_iff.mpr hopt
  have hlen : 70 + r.frame.ipOptions.val.length ≤ r.bytes.length := by
    rw [length_record, Frame.behind, ht, Transport.bytes]
    simp only [List.length_append, length_segment_header]
    omega
  by_cases hshort : takenLen r.frame.taken ≤ 20
  · obtain ⟨q, hq⟩ : ∃ q, q + 4 * r.frame.ihl + takenLen r.frame.taken = s.file.pos + r.bytes.length + 40 :=
      ⟨s.file.pos + r.bytes.length + 40 - 4 * r.frame.ihl - takenLen r.frame.taken, by omega⟩
    exact .inr ⟨q, _, cycle_short h hp hw hshort hq, .inl ⟨hshort, hq, rfl⟩⟩
  have hlong := Nat.not_le.mp hshort
  by_cases hrest : r.frame.behind.drop 20 ++ tail = []
  · exact .inl (cycle_eof h hp hw hlong hrest)
  · obtain ⟨q, hq⟩ : ∃ q, q + 4 * r.frame.ihl + takenLen r.frame.taken = s.file.pos + r.bytes.length + 40 +
        min (takenLen r.frame.taken - 20) (r.frame.behind.drop 20 ++ tail).length :=
      ⟨s.file.pos + r.bytes.length + 40 + min (takenLen r.frame.taken - 20)
        (r.frame.behind.drop 20 ++ tail).length - 4 * r.frame.ihl - takenLen r.frame.taken, by omega⟩
    exact .inr ⟨q, _, cycle_long h hp hw hlong hrest hq, .inr ⟨hlong, by omega⟩⟩

/-! ## Any round -/

/-- The state at the end of a round, whether the loop goes on or not. -/
def endOf : Outcome State → State
  | .running s => s
  | .halted s => s

theorem skipRemaining_grow (s : State) (pHeader : PacketHeader) (ipHeader : IPHeader) (tcpHeader : TCPHeader) :
    (endOf (skipRemaining s pHeader ipHeader tcpHeader)).started = s.started ∧
      (endOf (skipRemaining s pHeader ipHeader tcpHeader)).dataList = s.dataList := by
  simp only [skipRemaining]
  split <;> exact ⟨rfl, rfl⟩

theorem tcpRound_grow {s : State} {pHeader : PacketHeader} {ipHeader : IPHeader} {o : Outcome State}
    (h : tcpRound s pHeader ipHeader = some o) :
    (endOf o).started = s.started ∧ s.dataList <+: (endOf o).dataList := by
  unfold tcpRound at h
  split at h
  · cases h
    exact ⟨rfl, List.prefix_refl _⟩
  · split at h
    · cases h
      rw [(skipRemaining_grow _ _ _ _).1, (skipRemaining_grow _ _ _ _).2]
      exact ⟨rfl, List.prefix_append _ _⟩
    · cases h

theorem round_grow {s : State} {pHeader : PacketHeader} {o : Outcome State} (h : round s pHeader = some o) :
    (endOf o).started = s.started ∧ s.dataList <+: (endOf o).dataList := by
  unfold round at h
  split at h
  · cases h
    exact ⟨rfl, List.prefix_refl _⟩
  · split at h
    · cases h
      exact ⟨rfl, List.prefix_refl _⟩
    · split at h
      · have hgrow := tcpRound_grow h
        exact hgrow
      · cases h

/-- A cycle ends the loop at the end of the file, or it is one round. -/
theorem cycle_grow {s : State} {o : Outcome State} (h : cycle s = some o) :
    (s.file.rest = [] ∧ o = .halted s) ∨
      (s.file.rest ≠ [] ∧ (endOf o).started = s.started ++ [s.file.pos] ∧ s.dataList <+: (endOf o).dataList) := by
  by_cases hrest : s.file.rest = []
  · have hread : readPacketHeader s.file = .error .eof := by
      rw [readPacketHeader, File.read_eof hrest (by decide)]
      rfl
    simp only [cycle, hread] at h
    cases h
    exact .inl ⟨hrest, rfl⟩
  · obtain ⟨b, -, hread⟩ := File.read_rest hrest PerPacketHeaderSize
    have hheader : ∃ pHeader f, readPacketHeader s.file = .ok (pHeader, f) := by
      rw [readPacketHeader, hread]
      exact ⟨_, _, rfl⟩
    obtain ⟨pHeader, f, hheader⟩ := hheader
    simp only [cycle, hheader] at h
    have hgrow := round_grow h
    exact .inr ⟨hrest, hgrow⟩

end Csapp.Capture.Modular
