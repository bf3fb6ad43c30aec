import Csapp.Capture.Parse

/-!
# Capture.Stream — when `Parse` returns the stream of the server

A `Trace` lists records in any order: packets of the client, and packets of the server that carry a segment
of its stream, any number of times each, or no data.  The bytes of the segments are left open.  `Parse` returns the
stream, whatever it is, only if the first packet with the sequence number of a segment is that segment, the first
packet with any sequence number has no padding, and the sequence numbers of the segments do not wrap around
(`parse_iff`).
-/

namespace Csapp.Capture

open Csapp.Lib

/-! ## Traces -/

/-- A segment of the stream, or no data. -/
inductive Content (n : ℕ)
  | segment (i : Fin n)
  | empty (seq : UInt32)
  deriving DecidableEq

/-- A packet from the server. -/
structure Sent (n : ℕ) where
  header : Header
  dest : UInt32
  content : Content n

inductive Record (n : ℕ)
  | client (packet : Packet)
  | server (sent : Sent n)

def Content.length {n : ℕ} (lengths : Fin n → ℕ) : Content n → ℕ
  | .segment i => lengths i
  | .empty _ => 0

def Content.payload {n : ℕ} (c : Fin n → List UInt8) : Content n → List UInt8
  | .segment i => c i
  | .empty _ => []

/-- Packets of the client come from elsewhere, and datagrams have a length that their headers can say. -/
def Record.Ok {n : ℕ} (server : UInt32) (lengths : Fin n → ℕ) : Record n → Prop
  | .client packet => packet.source ≠ server ∧ packet.Fits
  | .server sent => sent.header.totalLen (sent.content.length lengths) ≤ 65535

/-- A packet of the server other than one with exactly the flags SYN and ACK. -/
def Record.counted {n : ℕ} : Record n → Option (Sent n)
  | .client _ => none
  | .server sent => if sent.header.flags = 0x12 then none else some sent

/-- A capture file but for the bytes of the stream: `lengths` are the lengths of its segments, all of which are
listed, and the first record comes from the client. -/
structure Trace where
  segments : ℕ
  lengths : Fin segments → ℕ
  lengths_pos : ∀ i, 0 < lengths i
  initialSeq : UInt32
  pcapHeader : {l : List UInt8 // l.length = 24}
  server : UInt32
  server_ne : server ≠ 0
  first : Packet
  first_dest : first.dest = server
  first_ok : (Record.client first : Record segments).Ok server lengths
  records : List (Record segments)
  records_ok : ∀ r ∈ records, r.Ok server lengths
  listed : ∀ i, ∃ sent, .server sent ∈ records ∧ sent.content = .segment i

namespace Trace

variable (T : Trace)

/-- The sequence number of a segment: the initial one is that of the SYN. -/
def seqOf (i : Fin T.segments) : UInt32 := T.initialSeq + 1 + UInt32.ofNat ((List.ofFn T.lengths).take i).sum

def seq (sent : Sent T.segments) : UInt32 :=
  match sent.content with
  | .segment i => T.seqOf i
  | .empty seq => seq

section Contents

variable (c : Fin T.segments → List UInt8)

def sentPacket (sent : Sent T.segments) : Packet :=
  ⟨sent.header, T.server, sent.dest, T.seq sent, sent.content.payload c⟩

def packet : Record T.segments → Packet
  | .client packet => packet
  | .server sent => T.sentPacket c sent

/-- The bytes of the file, with these bytes in the segments. -/
def file : List UInt8 := T.pcapHeader.val ++ (T.first :: T.records.map (T.packet c)).flatMap Packet.recordBytes

def stream : List UInt8 := (List.finRange T.segments).flatMap c

end Contents

def counted : List (Sent T.segments) := T.records.filterMap Record.counted

/-- The first of them with a sequence number. -/
def firstWith (seq : UInt32) : Option (Sent T.segments) := T.counted.find? fun sent => T.seq sent = seq

/-- The first packet with the sequence number of a segment carries this segment, no packet that is the first with
its number is padded, and the sequence numbers increase along the stream. -/
structure Good : Prop where
  present : ∀ i, ∃ sent, T.firstWith (T.seqOf i) = some sent ∧ sent.content = .segment i
  unpadded : ∀ seq sent, T.firstWith seq = some sent → sent.header.padding.val = []
  increasing : ∀ i j, i < j → T.seqOf i < T.seqOf j

/-! ## What `Parse` keeps -/

/-- The packets that are kept, in the order of their sequence numbers. -/
def kept : List (Sent T.segments) :=
  (firsts T.seq [] T.counted).mergeSort fun a b => !decide (T.seq b < T.seq a)

/-- The data of a packet: its segment, if it has one, and the padding. -/
def block (sent : Sent T.segments) : Option (Fin T.segments) × List UInt8 :=
  match sent.content with
  | .segment i => (some i, sent.header.padding.val)
  | .empty _ => (none, sent.header.padding.val)

variable {T} {c : Fin T.segments → List UInt8} {sent : Sent T.segments}

theorem data_sentPacket (T : Trace) (c : Fin T.segments → List UInt8) (sent : Sent T.segments) :
    (T.sentPacket c sent).tcpPacket.Data = (T.block sent).1.elim [] c ++ (T.block sent).2 := by
  obtain ⟨header, dest, content⟩ := sent
  cases content <;> rfl

theorem fromServer_map (c : Fin T.segments → List UInt8) : ∀ records : List (Record T.segments),
    (∀ r ∈ records, r.Ok T.server T.lengths) → fromServer T.server (records.map (T.packet c)) =
      (records.filterMap Record.counted).map fun sent => (T.sentPacket c sent).tcpPacket
  | [], _ => rfl
  | r :: records, h => by
    have ih := fromServer_map c records fun r' hr' => h r' (List.mem_cons_of_mem r hr')
    have hr := h r List.mem_cons_self
    rw [List.map_cons, fromServer_cons, ih, List.filterMap_cons]
    cases r with
    | client packet => rw [if_neg fun hand => hr.1 hand.1, Record.counted]
    | server sent =>
      rw [Record.counted]
      by_cases hflags : sent.header.flags = 0x12
      · rw [if_neg fun hand => hand.2 hflags, if_pos hflags]
      · have hserver : T.server = T.server ∧ sent.header.flags ≠ 0x12 := ⟨rfl, hflags⟩
        rw [if_neg hflags]
        exact if_pos hserver

theorem packet_fits (hc : HasLengths T.lengths c) : ∀ p ∈ T.first :: T.records.map (T.packet c), p.Fits := by
  intro p hp
  rcases List.mem_cons.mp hp with rfl | hp
  · exact T.first_ok.2
  · obtain ⟨r, hr, rfl⟩ := List.mem_map.mp hp
    have hok := T.records_ok r hr
    cases r with
    | client packet => exact hok.2
    | server sent =>
      obtain ⟨header, dest, content⟩ := sent
      cases content with
      | segment i =>
        show header.totalLen (c i).length ≤ 65535
        rw [hc i]
        exact hok
      | empty seq => exact hok

/-- **`Parse`** joins the data of the packets that are kept. -/
theorem parse_eq (hc : HasLengths T.lengths c) : Parse (T.file c) = some (joined c (T.kept.map T.block)) := by
  have hsort := List.map_mergeSort (r := fun a b => !decide (T.seq b < T.seq a)) (s := notAfter)
    (f := fun sent => (T.sentPacket c sent).tcpPacket) (l := firsts T.seq [] T.counted) fun a _ b _ => rfl
  rw [file, parse_records T.pcapHeader.property T.server_ne T.first_dest T.first_ok.1 (packet_fits hc),
    fromServer_map c T.records T.records_ok, ← counted, firsts_map]
  have hseq : firsts (fun sent => (T.sentPacket c sent).tcpPacket.SequenceNo) [] T.counted =
      firsts T.seq [] T.counted := rfl
  rw [hseq, ← hsort, ← kept, List.flatMap_map, joined, List.flatMap_map]
  simp only [data_sentPacket]

/-! ## The condition -/

theorem mem_kept : sent ∈ T.kept ↔ T.firstWith (T.seq sent) = some sent := by
  rw [kept, List.mem_mergeSort, mem_firsts]
  exact and_iff_right List.not_mem_nil

theorem seq_of_firstWith {seq : UInt32} (h : T.firstWith seq = some sent) : T.seq sent = seq :=
  of_decide_eq_true (List.find?_some (p := fun s => decide (T.seq s = seq)) h)

theorem strict_kept (T : Trace) : StrictBy (fun sent => (T.seq sent).toNat) T.kept := by
  refine strict_sort_firsts (fun a b heq => UInt32.toNat_inj.mp heq) (fun a b => ?_) T.counted
  rw [Bool.not_eq_true', decide_eq_false_iff_not, UInt32.lt_iff_toNat_lt, not_lt]

theorem block_fst {i : Fin T.segments} : (T.block sent).1 = some i ↔ sent.content = .segment i := by
  obtain ⟨header, dest, content⟩ := sent
  cases content with
  | segment j => simp [block]
  | empty seq => simp [block]

theorem block_snd (T : Trace) (sent : Sent T.segments) : (T.block sent).2 = sent.header.padding.val := by
  obtain ⟨header, dest, content⟩ := sent
  cases content <;> rfl

theorem seq_segment {i : Fin T.segments} (h : sent.content = .segment i) : T.seq sent = T.seqOf i := by
  rw [seq, h]

/-- Nothing is added iff what comes first is not padded. -/
theorem unpadded_iff (T : Trace) : (∀ b ∈ T.kept.map T.block, b.2 = []) ↔
    ∀ seq sent, T.firstWith seq = some sent → sent.header.padding.val = [] := by
  rw [List.forall_mem_map]
  constructor
  · intro h seq sent hfirst
    have hseq := seq_of_firstWith hfirst
    rw [← block_snd T sent]
    exact h sent (mem_kept.mpr (by rw [hseq]; exact hfirst))
  · intro h sent hsent
    rw [block_snd T sent]
    exact h _ sent (mem_kept.mp hsent)

/-- The segments that are kept, in their order. -/
def indices (T : Trace) : List (Fin T.segments) := (T.kept.map T.block).filterMap Prod.fst

theorem mem_indices {i : Fin T.segments} :
    i ∈ T.indices ↔ ∃ sent, T.firstWith (T.seqOf i) = some sent ∧ sent.content = .segment i := by
  rw [indices, List.mem_filterMap]
  constructor
  · rintro ⟨b, hb, hi⟩
    obtain ⟨sent, hsent, rfl⟩ := List.mem_map.mp hb
    have hcontent := block_fst.mp hi
    refine ⟨sent, ?_, hcontent⟩
    rw [← seq_segment hcontent]
    exact mem_kept.mp hsent
  · rintro ⟨sent, hfirst, hcontent⟩
    rw [← seq_segment hcontent] at hfirst
    exact ⟨T.block sent, List.mem_map_of_mem (mem_kept.mpr hfirst), block_fst.mpr hcontent⟩

theorem strict_indices (T : Trace) : StrictBy (fun i => (T.seqOf i).toNat) T.indices := by
  rw [StrictBy, indices, List.pairwise_filterMap, List.pairwise_map]
  refine List.Pairwise.imp ?_ (strict_kept T)
  intro a b hab i hi j hj
  dsimp only at hab
  rwa [seq_segment (block_fst.mp hi), seq_segment (block_fst.mp hj)] at hab

/-- The segments are kept in the order of the stream iff each of them comes first and their sequence numbers
increase. -/
theorem indices_iff (T : Trace) : T.indices = List.finRange T.segments ↔
    (∀ i, ∃ sent, T.firstWith (T.seqOf i) = some sent ∧ sent.content = .segment i) ∧
      ∀ i j, i < j → T.seqOf i < T.seqOf j := by
  have hstrict : StrictBy (fun i => (T.seqOf i).toNat) (List.finRange T.segments) ↔
      ∀ i j, i < j → T.seqOf i < T.seqOf j := by
    constructor
    · intro h i j hij
      have hget := List.pairwise_iff_getElem.mp h i j (by simp) (by simp) hij
      rw [List.getElem_finRange, List.getElem_finRange] at hget
      exact UInt32.lt_iff_toNat_lt.mpr hget
    · intro h
      exact (List.pairwise_lt_finRange T.segments).imp fun hij => UInt32.lt_iff_toNat_lt.mp (h _ _ hij)
  constructor
  · intro h
    refine ⟨fun i => mem_indices.mp ?_, hstrict.mp ?_⟩
    · rw [h]
      exact List.mem_finRange i
    · rw [← h]
      exact strict_indices T
  · rintro ⟨hpresent, hincreasing⟩
    refine (strict_indices T).eq_of_perm (hstrict.mpr hincreasing) ?_
    refine (List.perm_ext_iff_of_nodup ?_ (List.nodup_finRange T.segments)).mpr fun i => ?_
    · refine List.Pairwise.imp ?_ (strict_indices T)
      rintro i j hlt rfl
      exact lt_irrefl _ hlt
    · exact iff_of_true (mem_indices.mpr (hpresent i)) (List.mem_finRange i)

/-- **`Parse` returns the stream**, whatever it is, iff the trace is good. -/
theorem parse_iff (T : Trace) :
    (∀ c, HasLengths T.lengths c → Parse (T.file c) = some (T.stream c)) ↔ T.Good := by
  have hbytes : Nontrivial UInt8 := ⟨0, 1, by decide⟩
  have hjoined : (∀ c, HasLengths T.lengths c → Parse (T.file c) = some (T.stream c)) ↔
      ∀ c, HasLengths T.lengths c → joined c (T.kept.map T.block) = (List.finRange T.segments).flatMap c := by
    refine forall_congr' fun c => imp_congr_right fun hc => ?_
    rw [parse_eq hc, Option.some.injEq, stream]
  rw [hjoined, joined_iff T.lengths_pos, unpadded_iff, ← indices, indices_iff]
  constructor
  · rintro ⟨h1, h2, h3⟩
    exact ⟨h2, h1, h3⟩
  · rintro ⟨h1, h2, h3⟩
    exact ⟨h2, h1, h3⟩

/-! ### A trace with one segment -/

/-- No options, no padding, and these flags. -/
def sampleHeader (flags : UInt8) : Header where
  timestamp := 0
  timestamp2 := 0
  originalLen := 54
  macDest := ⟨[1, 1, 1, 1, 1, 1], rfl⟩
  macSource := ⟨[2, 2, 2, 2, 2, 2], rfl⟩
  dscpEcn := 0
  id := 0
  flagsOffset := 0
  ttl := 64
  protocol := 6
  headerChecksum := 0
  ipOptions := ⟨[], by decide⟩
  sourcePort := 80
  destPort := 50000
  ackNo := 1
  flags := flags
  windowSize := 1000
  checksum := 0
  urgentPtr := 0
  tcpOptions := ⟨[], by decide⟩
  padding := ⟨[], by decide⟩

/-- After the SYN of the client the server sends SYN and ACK, an ACK with this sequence number, and the segment,
whose sequence number is 1. -/
def ackFirst (seq : UInt32) : Trace where
  segments := 1
  lengths _ := 1
  lengths_pos _ := Nat.one_pos
  initialSeq := 0
  pcapHeader := ⟨List.replicate 24 0, rfl⟩
  server := 1
  server_ne := by decide
  first := ⟨sampleHeader 0x02, 2, 1, 0, []⟩
  first_dest := rfl
  first_ok := ⟨by decide, (by decide : 40 ≤ 65535)⟩
  records := [.server ⟨sampleHeader 0x12, 2, .empty 0⟩, .server ⟨sampleHeader 0x10, 2, .empty seq⟩,
    .server ⟨sampleHeader 0x18, 2, .segment 0⟩]
  records_ok := by
    have h40 : (40 : ℕ) ≤ 65535 := by decide
    have h41 : (41 : ℕ) ≤ 65535 := by decide
    intro r hr
    simp only [List.mem_cons, List.not_mem_nil, or_false] at hr
    rcases hr with rfl | rfl | rfl
    · exact h40
    · exact h40
    · exact h41
  listed i := by
    have hi : i = 0 := Fin.ext (by omega)
    rw [hi]
    exact ⟨_, List.mem_of_getElem? (i := 2) rfl, rfl⟩

/-- With the number of the segment, the ACK has the segment `"A"` taken for a repetition. -/
theorem parse_ackFirst : ∃ c, HasLengths (ackFirst 1).lengths c ∧ (ackFirst 1).stream c = [65] ∧
    Parse ((ackFirst 1).file c) = some [] := by
  have hc : HasLengths (ackFirst 1).lengths fun _ => [65] := fun _ => rfl
  have hfirsts : firsts (ackFirst 1).seq [] (ackFirst 1).counted = [⟨sampleHeader 0x10, 2, .empty 1⟩] := rfl
  refine ⟨fun _ => [65], hc, rfl, ?_⟩
  rw [parse_eq hc, kept, hfirsts, List.mergeSort_singleton]
  rfl

/-- With the number behind the segment it does no harm. -/
example : (ackFirst 2).Good where
  present := by
    intro (i : Fin 1)
    have hi : i = 0 := Fin.ext (by omega)
    rw [hi]
    exact ⟨(⟨sampleHeader 0x18, 2, .segment 0⟩ : Sent 1), rfl, rfl⟩
  unpadded := by
    intro seq (sent : Sent 1) h
    have hmem : sent ∈ ([⟨sampleHeader 0x10, 2, .empty 2⟩, ⟨sampleHeader 0x18, 2, .segment 0⟩] : List (Sent 1)) :=
      List.mem_of_find?_eq_some h
    rw [List.mem_cons, List.mem_singleton] at hmem
    rcases hmem with rfl | rfl <;> rfl
  increasing := by
    intro (i : Fin 1) (j : Fin 1) hij
    have hlt : i.val < j.val := hij
    have hj : j.val < 1 := j.isLt
    omega

end Trace

end Csapp.Capture
