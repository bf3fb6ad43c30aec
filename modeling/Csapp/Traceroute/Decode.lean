import Csapp.Dns.Parse
import Csapp.Traceroute.Icmp

/-!
# Traceroute.Decode — decoding what the socket receives

`DecodeIPv4Packet`, `DecodeICMPPacket` and the two decoders that it calls, over slices: `none` is an index or a
slice out of bounds, the errors are values.  An error message quotes the IP packet that it is about, and the
decoder goes on in the quoted packet.  Every layer is checked for its length except the first byte of an ICMP
packet, so that a packet is decoded unless it ends right behind an IP header (`receive_iff`).
-/

namespace Csapp.Traceroute

open Csapp.Lib Csapp.Dns

structure IPv4Packet where
  VersionAndIHL : UInt8
  TOS : UInt8
  TotalLen : UInt16
  ID : UInt16
  FlagsAndFragmentation : UInt16
  TTL : UInt8
  ULProto : UInt8
  HeaderChecksum : UInt16
  SourceIP : UInt32
  DestIP : UInt32
  Data : Slice UInt8

def DecodeIPv4Packet (b : Slice UInt8) : Option (Except String IPv4Packet) :=
  if b.data.length < 20 then
    some (.error "invalid ip packet length")
  else do
    let VersionAndIHL ← b.get 0
    let TOS ← b.get 1
    let TotalLen ← Uint16 b 2 4
    let ID ← Uint16 b 4 6
    let FlagsAndFragmentation ← Uint16 b 6 8
    let TTL ← b.get 8
    let ULProto ← b.get 9
    let HeaderChecksum ← Uint16 b 10 12
    let SourceIP ← Uint32 b 12 16
    let DestIP ← Uint32 b 16 20
    let Data ← b.drop 20
    some (.ok ⟨VersionAndIHL, TOS, TotalLen, ID, FlagsAndFragmentation, TTL, ULProto, HeaderChecksum, SourceIP,
      DestIP, Data⟩)

def DecodeICMPEchoPacket (b : Slice UInt8) : Option (Except String ICMPPacket) :=
  if b.data.length < 8 then
    some (.error "invalid icmp packet length")
  else do
    let type ← b.get 0
    let Code ← b.get 1
    let Checksum ← Uint16 b 2 4
    let ID ← Uint16 b 4 6
    let SequenceNo ← Uint16 b 6 8
    let Data ← b.drop 8
    some (.ok ⟨type, Code, Checksum, ID, SequenceNo, Data.data⟩)

/-! ## One layer -/

section Layer

variable {b : Slice UInt8}

theorem Uint16_le {i j : ℕ} (hi : i ≤ j) (hj : j ≤ b.data.length) : ∃ x, Uint16 b i j = some x := by
  obtain ⟨l, hl⟩ := Slice.sub_le hi hj
  exact ⟨uint16 l, by rw [Uint16, hl, Option.map_some]⟩

theorem Uint32_le {i j : ℕ} (hi : i ≤ j) (hj : j ≤ b.data.length) : ∃ x, Uint32 b i j = some x := by
  obtain ⟨l, hl⟩ := Slice.sub_le hi hj
  exact ⟨uint32 l, by rw [Uint32, hl, Option.map_some]⟩

theorem decodeIPv4_short (h : b.data.length < 20) :
    DecodeIPv4Packet b = some (.error "invalid ip packet length") := if_pos h

/-- The data of an IP packet is what stands behind the header. -/
theorem decodeIPv4_data (h : 20 ≤ b.data.length) :
    ∃ p, DecodeIPv4Packet b = some (.ok p) ∧ p.Data = ⟨b.data.drop 20, b.spare⟩ := by
  obtain ⟨versionAndIHL, h1⟩ := Slice.get_lt (b := b) (i := 0) (by omega)
  obtain ⟨tos, h2⟩ := Slice.get_lt (b := b) (i := 1) (by omega)
  obtain ⟨totalLen, h3⟩ := Uint16_le (b := b) (i := 2) (j := 4) (by omega) (by omega)
  obtain ⟨id, h4⟩ := Uint16_le (b := b) (i := 4) (j := 6) (by omega) (by omega)
  obtain ⟨flags, h5⟩ := Uint16_le (b := b) (i := 6) (j := 8) (by omega) (by omega)
  obtain ⟨ttl, h6⟩ := Slice.get_lt (b := b) (i := 8) (by omega)
  obtain ⟨ulProto, h7⟩ := Slice.get_lt (b := b) (i := 9) (by omega)
  obtain ⟨checksum, h8⟩ := Uint16_le (b := b) (i := 10) (j := 12) (by omega) (by omega)
  obtain ⟨source, h9⟩ := Uint32_le (b := b) (i := 12) (j := 16) (by omega) (by omega)
  obtain ⟨dest, h10⟩ := Uint32_le (b := b) (i := 16) (j := 20) (by omega) (by omega)
  refine ⟨⟨versionAndIHL, tos, totalLen, id, flags, ttl, ulProto, checksum, source, dest,
    ⟨b.data.drop 20, b.spare⟩⟩, ?_, rfl⟩
  rw [DecodeIPv4Packet, if_neg (Nat.not_lt.mpr h)]
  simp only [h1, h2, h3, h4, h5, h6, h7, h8, h9, h10, Slice.drop_le h, Option.bind_eq_bind, Option.bind_some]

theorem decodeIPv4_length {p : IPv4Packet} (h : DecodeIPv4Packet b = some (.ok p)) :
    20 ≤ b.data.length ∧ p.Data = ⟨b.data.drop 20, b.spare⟩ := by
  by_cases hlen : b.data.length < 20
  · rw [decodeIPv4_short hlen] at h
    cases h
  · obtain ⟨p', hp, hdata⟩ := decodeIPv4_data (Nat.le_of_not_lt hlen)
    obtain rfl : p' = p := Except.ok.inj (Option.some.inj (hp.symm.trans h))
    exact ⟨Nat.le_of_not_lt hlen, hdata⟩

/-- The decoder of echo packets checks the length. -/
theorem decodeEcho_total (b : Slice UInt8) : ∃ r, DecodeICMPEchoPacket b = some r := by
  by_cases hlen : b.data.length < 8
  · exact ⟨_, if_pos hlen⟩
  · obtain ⟨type, h1⟩ := Slice.get_lt (b := b) (i := 0) (by omega)
    obtain ⟨code, h2⟩ := Slice.get_lt (b := b) (i := 1) (by omega)
    obtain ⟨checksum, h3⟩ := Uint16_le (b := b) (i := 2) (j := 4) (by omega) (by omega)
    obtain ⟨id, h4⟩ := Uint16_le (b := b) (i := 4) (j := 6) (by omega) (by omega)
    obtain ⟨sequenceNo, h5⟩ := Uint16_le (b := b) (i := 6) (j := 8) (by omega) (by omega)
    refine ⟨.ok ⟨type, code, checksum, id, sequenceNo, b.data.drop 8⟩, ?_⟩
    rw [DecodeICMPEchoPacket, if_neg hlen]
    simp only [h1, h2, h3, h4, h5, Slice.drop_le (Nat.le_of_not_lt hlen), Option.bind_eq_bind, Option.bind_some]

end Layer

/-! ## The decoder -/

mutual

def DecodeICMPPacket (b : Slice UInt8) : Option (Except String ICMPPacket) :=
  match b.get 0 with
  | none => none
  | some packetType =>
    if packetType = 0x00 ∨ packetType = 0x08 then DecodeICMPEchoPacket b else DecodeICMPOtherPacket b
termination_by (b.data.length, 1)

def DecodeICMPOtherPacket (b : Slice UInt8) : Option (Except String ICMPPacket) :=
  if b.data.length < 8 then
    some (.error "invalid icmp ttl exceeded packet length")
  else
    match _hq : b.drop 8 with
    | none => none
    | some quoted =>
      match _hp : DecodeIPv4Packet quoted with
      | none => none
      | some (.error _) => some (.error "invalid ipv4 packet in ttl exceeded packet")
      | some (.ok ipPacket) =>
        match DecodeICMPPacket ipPacket.Data with
        | none => none
        | some (.error _) => some (.error "invalid icmp packet in ttl exceeded packet")
        | some (.ok icmppacket) => some (.ok icmppacket)
termination_by (b.data.length, 0)
decreasing_by
  -- What is quoted is shorter by the ICMP header, and by an IP header that is there.
  obtain ⟨_, hdrop⟩ := Option.ite_none_right_eq_some.mp _hq
  obtain rfl := Option.some.inj hdrop
  obtain ⟨-, hdata⟩ := decodeIPv4_length _hp
  rw [hdata]
  apply Prod.Lex.left
  simp only [List.length_drop]
  omega

end

/-- What the receive loop does with the bytes that it got. -/
def receive (b : Slice UInt8) : Option (Except String ICMPPacket) :=
  match DecodeIPv4Packet b with
  | none => none
  | some (.error e) => some (.error e)
  | some (.ok recvIPPacket) => DecodeICMPPacket recvIPPacket.Data

section Decoder

variable {data : List UInt8} {b : Slice UInt8}

/-- An echo request or an echo reply. -/
def IsEcho (packetType : UInt8) : Prop := packetType = 0x00 ∨ packetType = 0x08

/-- There are no bytes to decode. -/
theorem decodeICMP_nil (spare : List UInt8) : DecodeICMPPacket ⟨[], spare⟩ = none := by
  rw [DecodeICMPPacket]
  rfl

theorem decodeICMP_echo {x : UInt8} (hx : b.get 0 = some x) (h : IsEcho x) :
    DecodeICMPPacket b = DecodeICMPEchoPacket b := by
  rw [DecodeICMPPacket, hx]
  exact if_pos h

theorem decodeICMP_other {x : UInt8} (hx : b.get 0 = some x) (h : ¬ IsEcho x) :
    DecodeICMPPacket b = DecodeICMPOtherPacket b := by
  rw [DecodeICMPPacket, hx]
  exact if_neg h

/-- An error message that is too short to quote an IP packet is an error. -/
theorem decodeOther_short (h : b.data.length < 28) : ∃ e, DecodeICMPOtherPacket b = some (.error e) := by
  rw [DecodeICMPOtherPacket]
  by_cases h8 : b.data.length < 8
  · exact ⟨_, if_pos h8⟩
  · have hdrop := Slice.drop_le (Nat.le_of_not_lt h8)
    have hquoted : DecodeIPv4Packet ⟨b.data.drop 8, b.spare⟩ = some (.error "invalid ip packet length") := by
      refine decodeIPv4_short ?_
      rw [List.length_drop]
      omega
    rw [if_neg h8]
    split
    · next hq => cases hdrop.symm.trans hq
    · next quoted hq =>
      obtain rfl := Option.some.inj (hdrop.symm.trans hq)
      split
      · next hp => cases hquoted.symm.trans hp
      · exact ⟨_, rfl⟩
      · next hp => cases hquoted.symm.trans hp

/-- What an error message quotes is decoded behind its IP header. -/
theorem decodeOther_quoted (h : 28 ≤ b.data.length) :
    DecodeICMPOtherPacket b = none ↔ DecodeICMPPacket ⟨b.data.drop 28, b.spare⟩ = none := by
  have hdrop : b.drop 8 = some ⟨b.data.drop 8, b.spare⟩ := Slice.drop_le (by omega)
  obtain ⟨ipPacket, hip, hdata⟩ := decodeIPv4_data (b := ⟨b.data.drop 8, b.spare⟩) (by
    rw [List.length_drop]
    omega)
  rw [List.drop_drop] at hdata
  rw [DecodeICMPOtherPacket, if_neg (by omega), ← hdata]
  split
  · next hq => cases hdrop.symm.trans hq
  · next quoted hq =>
    obtain rfl := Option.some.inj (hdrop.symm.trans hq)
    split
    · next hp => cases hip.symm.trans hp
    · next hp => cases hip.symm.trans hp
    · next ipPacket' hp =>
      obtain rfl := Except.ok.inj (Option.some.inj (hip.symm.trans hp))
      cases DecodeICMPPacket ipPacket.Data with
      | none => exact ⟨fun _ => rfl, fun _ => rfl⟩
      | some r =>
        cases r with
        | error e => exact ⟨fun h => (nomatch h), fun h => (nomatch h)⟩
        | ok p => exact ⟨fun h => (nomatch h), fun h => (nomatch h)⟩

/-- A chain of error messages that each quote an IP packet, and after them nothing. -/
def EndsQuoting (data : List UInt8) : Prop :=
  ∃ k, data.length = 28 * k ∧ ∀ i < k, ∀ x, data[28 * i]? = some x → ¬ IsEcho x

theorem endsQuoting_cons (hlen : 28 ≤ data.length) :
    EndsQuoting data ↔ (∀ x, data[0]? = some x → ¬ IsEcho x) ∧ EndsQuoting (data.drop 28) := by
  constructor
  · rintro ⟨k, hk, hall⟩
    cases k with
    | zero => omega
    | succ k =>
      refine ⟨hall 0 (Nat.succ_pos k), k, ?_, fun i hi x hx => ?_⟩
      · rw [List.length_drop]
        omega
      · rw [List.getElem?_drop] at hx
        exact hall (i + 1) (Nat.succ_lt_succ hi) x (by rwa [Nat.mul_succ, Nat.add_comm])
  · rintro ⟨hhead, k, hk, hall⟩
    rw [List.length_drop] at hk
    refine ⟨k + 1, by omega, fun i hi x hx => ?_⟩
    cases i with
    | zero => exact hhead x hx
    | succ i =>
      refine hall i (Nat.lt_of_succ_lt_succ hi) x ?_
      rw [List.getElem?_drop, Nat.add_comm]
      exact hx

/-- **The decoder runs out of bytes** behind the error messages, if at all. -/
theorem decodeICMP_none_iff (data spare : List UInt8) :
    DecodeICMPPacket ⟨data, spare⟩ = none ↔ EndsQuoting data := by
  induction hn : data.length using Nat.strong_induction_on generalizing data with
  | _ n ih =>
    cases data with
    | nil => exact ⟨fun _ => ⟨0, rfl, fun i hi => absurd hi (Nat.not_lt_zero i)⟩, fun _ => decodeICMP_nil spare⟩
    | cons x l =>
      have hget : (Slice.mk (x :: l) spare).get 0 = some x := rfl
      by_cases hx : IsEcho x
      · rw [decodeICMP_echo hget hx]
        refine ⟨fun h => ?_, ?_⟩
        · obtain ⟨r, hr⟩ := decodeEcho_total ⟨x :: l, spare⟩
          cases hr.symm.trans h
        · rintro ⟨k, hk, hall⟩
          cases k with
          | zero => cases hk
          | succ k => exact absurd hx (hall 0 (Nat.succ_pos k) x rfl)
      · rw [decodeICMP_other hget hx]
        by_cases hlen : 28 ≤ (x :: l).length
        · have hlt : ((x :: l).drop 28).length < n := by
            rw [List.length_drop]
            omega
          rw [decodeOther_quoted hlen, ih _ hlt _ rfl, endsQuoting_cons hlen]
          refine ⟨fun h => ⟨fun y hy => ?_, h⟩, fun h => h.2⟩
          obtain rfl := Option.some.inj hy
          exact hx
        · refine ⟨fun h => ?_, ?_⟩
          · obtain ⟨e, he⟩ := decodeOther_short (b := ⟨x :: l, spare⟩) (Nat.lt_of_not_le hlen)
            cases he.symm.trans h
          · rintro ⟨k, hk, -⟩
            rw [List.length_cons] at hk hlen
            omega

end Decoder

/-! ## What is received -/

/-- The bytes end right behind an IP header: that of the packet, or of the last packet that is quoted. -/
def EndsAtHeader (l : List UInt8) : Prop :=
  ∃ k, l.length = 20 + 28 * k ∧ ∀ i < k, ∀ x, l[20 + 28 * i]? = some x → ¬ IsEcho x

theorem endsAtHeader_iff {l : List UInt8} (hlen : 20 ≤ l.length) : EndsAtHeader l ↔ EndsQuoting (l.drop 20) := by
  simp only [EndsAtHeader, EndsQuoting, List.length_drop, List.getElem?_drop]
  refine exists_congr fun k => and_congr_left' ?_
  omega

theorem receive_none_iff (b : Slice UInt8) : receive b = none ↔ EndsAtHeader b.data := by
  rw [receive]
  by_cases hlen : b.data.length < 20
  · rw [decodeIPv4_short hlen]
    refine ⟨fun h => (nomatch h), ?_⟩
    rintro ⟨k, hk, -⟩
    omega
  · obtain ⟨p, hp, hdata⟩ := decodeIPv4_data (Nat.le_of_not_lt hlen)
    rw [hp, endsAtHeader_iff (Nat.le_of_not_lt hlen)]
    dsimp only
    rw [hdata, decodeICMP_none_iff]

/-- An echo packet is decoded as it was encoded. -/
theorem decodeICMP_encode {p : ICMPPacket} (hp : IsEcho p.type) (spare : List UInt8) :
    DecodeICMPPacket ⟨p.Encode, spare⟩ = some (.ok p) := by
  set b : Slice UInt8 := ⟨p.Encode, spare⟩
  have h : b.At 0 ([p.type, p.Code] ++ be16 p.Checksum ++ be16 p.ID ++ be16 p.SequenceNo ++ p.Data) :=
    ⟨[], [], (List.append_nil _).symm, rfl⟩
  have htype : b.get 0 = some p.type := h.left.left.left.left.get
  have hcode : b.get 1 = some p.Code := h.left.left.left.left.tail.get
  have hchecksum : Uint16 b 2 4 = some p.Checksum := Uint16_at h.left.left.left.right
  have hid : Uint16 b 4 6 = some p.ID := Uint16_at h.left.left.right
  have hsequence : Uint16 b 6 8 = some p.SequenceNo := Uint16_at h.left.right
  have hlen : 8 ≤ b.data.length := Nat.le_trans (Nat.le_add_right 8 p.Data.length) h.right.le
  have hdata : b.drop 8 = some ⟨p.Data, spare⟩ := Slice.drop_le hlen
  rw [decodeICMP_echo htype hp, DecodeICMPEchoPacket, if_neg (Nat.not_lt.mpr hlen)]
  simp only [htype, hcode, hchecksum, hid, hsequence, hdata, Option.bind_eq_bind, Option.bind_some]

/-- **The receive loop decodes what it gets**, without an index out of range, if and only if the bytes do not end
right behind an IP header; an echo packet is decoded as it was encoded. -/
theorem receive_iff (b : Slice UInt8) :
    ((∃ r, receive b = some r) ↔ ¬ EndsAtHeader b.data) ∧
      ∀ p : ICMPPacket, IsEcho p.type → ∀ spare, DecodeICMPPacket ⟨p.Encode, spare⟩ = some (.ok p) := by
  refine ⟨?_, fun p hp spare => decodeICMP_encode hp spare⟩
  rw [← receive_none_iff, ← Option.isSome_iff_exists, Option.isSome_iff_ne_none]

/-- An IP packet without data, from and to `127.0.0.1`. -/
theorem bare_header_not_decoded : ¬ ∃ r, receive
    ⟨[0x45, 0, 0, 20, 0, 0, 0, 0, 64, 1, 0x7c, 0xe7, 127, 0, 0, 1, 127, 0, 0, 1], []⟩ = some r := by
  rintro ⟨r, hr⟩
  cases ((receive_none_iff _).mpr ⟨0, rfl, fun i hi => absurd hi (Nat.not_lt_zero i)⟩).symm.trans hr

end Csapp.Traceroute
