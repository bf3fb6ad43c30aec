import Csapp.Capture.ModularRound

/-!
# Capture.ModularLoop — the captures that the modular parser gets through

`InStep` is what a record has to be like: a TCP packet without payload, where the IP header has no options, and
otherwise one whose bytes by chance say what they should where the loop looks for them.  The loop owes what
`Processed` says and gives it for the captures of such records (`processed_iff`).
-/

namespace Csapp.Capture.Modular

open Csapp.Lib

/-! ## Records that keep the loop in step -/

/-- With options, the two header lengths have to add up to 40 bytes, so that what has not been read of the IP
header makes up for what is missing of the TCP header.  Less will do in the `last` record, behind which the
file ends. -/
def InStep (last : Prop) (r : Record) : Prop :=
  match r.frame.transport with
  | .other _ _ => False
  | .tcp t =>
    (r.frame.ipOptions.val = [] ∧ t.payload = []) ∨
      (r.frame.ipOptions.val ≠ [] ∧
        (4 * r.frame.ihl + takenLen r.frame.taken = 40 ∨
          (last ∧ 4 * r.frame.ihl + takenLen r.frame.taken < 40)) ∧
        uint32 (bytesAt r.frame.taken 4 8) = t.seq ∧
        r.frame.taken.drop (takenLen r.frame.taken) = t.payload)

section InStep

variable {last : Prop} {r : Record} {t : Segment} (ht : r.frame.transport = .tcp t)
include ht

theorem InStep.of_plain (hopt : r.frame.ipOptions.val = []) (hpayload : t.payload = []) : InStep last r := by
  rw [InStep, ht]
  exact .inl ⟨hopt, hpayload⟩

/-- What the round takes for the TCP data is what the packet has. -/
theorem InStep.of_options (hopt : r.frame.ipOptions.val ≠ [])
    (hsum : 4 * r.frame.ihl + takenLen r.frame.taken = 40 ∨
      (last ∧ 4 * r.frame.ihl + takenLen r.frame.taken < 40))
    (hdata : (⟨uint32 (bytesAt r.frame.taken 4 8), r.frame.taken.drop (takenLen r.frame.taken)⟩ : TCPData) =
      ⟨t.seq, t.payload⟩) : InStep last r := by
  rw [InStep, ht]
  exact .inr ⟨hopt, hsum, TCPData.mk.inj hdata⟩

end InStep

def AllInStep : List Record → Prop
  | [] => True
  | r :: rs => InStep (rs = []) r ∧ AllInStep rs

theorem ihl_of_options {p : Frame} (h : p.ipOptions.val ≠ []) : 24 ≤ 4 * p.ihl := by
  have hmul := words_mul p.ipOptions
  have hmod := p.ipOptions.property.1
  have hpos := List.length_pos_iff.mpr h
  rw [Frame.ihl]
  omega

/-! ## Ends of runs -/

theorem halted_eof {s : State} (h : s.file.rest = []) : Halts cycle s s := by
  have hread : readPacketHeader s.file = .error .eof := by
    rw [readPacketHeader, File.read_eof h (by decide)]
    rfl
  refine Halts.step ?_
  simp only [cycle, hread]

/-- What a run has done stays done. -/
theorem halts_grow {s s' : State} (h : Halts cycle s s') :
    s.dataList <+: s'.dataList ∧
      ((s.file.rest = [] ∧ s' = s) ∨ (s.file.rest ≠ [] ∧ s.started ++ [s.file.pos] <+: s'.started)) := by
  refine Halts.induct (P := fun s => s.dataList <+: s'.dataList ∧ ((s.file.rest = [] ∧ s' = s) ∨
    (s.file.rest ≠ [] ∧ s.started ++ [s.file.pos] <+: s'.started))) (fun s hs => ?_) (fun s t hs ih => ?_) h
  · rcases cycle_grow hs with ⟨hrest, ho⟩ | ⟨hrest, hstarted, hdata⟩
    · cases ho
      exact ⟨List.prefix_refl _, .inl ⟨hrest, rfl⟩⟩
    · have hend : s.started ++ [s.file.pos] <+: s'.started := by
        rw [← hstarted]
        exact List.prefix_refl _
      exact ⟨hdata, .inr ⟨hrest, hend⟩⟩
  · rcases cycle_grow hs with ⟨-, ho⟩ | ⟨hrest, hstarted, hdata⟩
    · cases ho
    · have hmore : t.started <+: s'.started := by
        rcases ih.2 with ⟨-, rfl⟩ | ⟨-, hmore⟩
        · exact List.prefix_refl _
        · exact (List.prefix_append _ _).trans hmore
      exact ⟨hdata.trans ih.1, .inr ⟨hrest, hstarted ▸ hmore⟩⟩

/-! ## Records in step are processed -/

theorem InStep.step {s : State} {r : Record} {last : Prop} {tail : List UInt8}
    (h : s.file.rest = r.bytes ++ tail) (hr : InStep last r) :
    ∃ t q, r.frame.transport = .tcp t ∧ cycle s = some (.running (s.next q ⟨t.seq, t.payload⟩)) ∧
      (q = s.file.pos + r.bytes.length ∨ (last ∧ s.file.pos + r.bytes.length ≤ q)) := by
  unfold InStep at hr
  split at hr
  · exact absurd hr not_false
  · next t ht =>
    rcases hr with ⟨hopt, hpayload⟩ | ⟨hopt, hsum, hseq, hdata⟩
    · refine ⟨t, _, ht, ?_, .inl rfl⟩
      rw [cycle_plain h ht hopt, hpayload]
    · have hihl := ihl_of_options hopt
      have hp : r.frame.transport.protocol = 6 := by rw [ht]; rfl
      obtain ⟨q, hq⟩ : ∃ q, q + 4 * r.frame.ihl + takenLen r.frame.taken = s.file.pos + r.bytes.length + 40 :=
        ⟨s.file.pos + r.bytes.length + 40 - 4 * r.frame.ihl - takenLen r.frame.taken, by omega⟩
      refine ⟨t, q, ht, ?_, ?_⟩
      · rw [cycle_short h hp (length_taken ht) (by omega) hq, hseq, hdata]
      · rcases hsum with hsum | ⟨hlast, hsum⟩
        · exact .inl (by omega)
        · exact .inr ⟨hlast, by omega⟩

theorem processed_of_inStep : ∀ (rs : List Record) (s : State), s.file.rest = rs.flatMap Record.bytes →
    AllInStep rs → ∃ s', Halts cycle s s' ∧ s'.failure = s.failure ∧
      s'.started = s.started ++ offsets s.file.pos rs ∧ s'.packetCount = s.packetCount + rs.length ∧
      s'.dataList = s.dataList ++ entries rs := by
  intro rs
  induction rs with
  | nil =>
    intro s hrest _
    exact ⟨s, halted_eof hrest, rfl, (List.append_nil _).symm, rfl, (List.append_nil _).symm⟩
  | cons r rs ih =>
    intro s hrest hall
    rw [List.flatMap_cons] at hrest
    obtain ⟨t, q, ht, hcycle, hq⟩ := hall.1.step hrest
    have hnext : (s.next q ⟨t.seq, t.payload⟩).file.rest = rs.flatMap Record.bytes ∧
        offsets (s.file.pos + r.bytes.length) rs = offsets q rs := by
      rcases hq with rfl | ⟨rfl, hq⟩
      · exact ⟨File.rest_moved hrest, rfl⟩
      · have hlen := congrArg List.length hrest
        rw [File.rest, List.length_drop, List.length_append] at hlen
        refine ⟨List.drop_of_length_le ?_, rfl⟩
        show s.file.content.length ≤ q
        simp only [List.flatMap_nil, List.length_nil] at hlen
        omega
    obtain ⟨s', hh, hfail, hstarted, hcount, hdata⟩ := ih _ hnext.1 hall.2
    refine ⟨s', (Reaches.step hcycle).halts hh, hfail, ?_, ?_, ?_⟩
    · rw [hstarted, offsets, hnext.2]
      exact List.append_assoc _ _ _
    · rw [hcount, List.length_cons]
      show s.packetCount + 1 + _ = _
      omega
    · rw [hdata, entries, ht]
      exact List.append_assoc _ _ _

/-! ## Only these are -/

/-- A round at a record in a run that ends without an error. -/
theorem step_of_halts {s s' : State} {r : Record} {tail : List UInt8} (h : s.file.rest = r.bytes ++ tail)
    (hh : Halts cycle s s') (hf : s'.failure = none) :
    ∃ t q d, r.frame.transport = .tcp t ∧ Halts cycle (s.next q d) s' ∧
      (d = ⟨t.seq, t.payload⟩ → q = s.file.pos + r.bytes.length → InStep False r) ∧
      (d = ⟨t.seq, t.payload⟩ → s.file.pos + r.bytes.length ≤ q → InStep True r) := by
  cases ht : r.frame.transport with
  | other protocol data => exact absurd (cycle_other h (by rw [ht]; exact protocol.property)) hh.ne_none
  | tcp t =>
    by_cases hopt : r.frame.ipOptions.val = []
    · have hplain : ∀ last, (⟨t.seq, []⟩ : TCPData) = ⟨t.seq, t.payload⟩ → InStep last r := fun last hd =>
        .of_plain ht hopt (TCPData.mk.inj hd).2.symm
      exact ⟨t, _, _, rfl, hh.of_running (cycle_plain h ht hopt), fun hd _ => hplain _ hd, fun hd _ => hplain _ hd⟩
    · rcases cycle_options h ht hopt with ⟨u, hc, hu⟩ | ⟨q, d, hc, hpos⟩
      · exact absurd hf (hh.eq_of_halted hc ▸ hu)
      · refine ⟨t, q, d, rfl, hh.of_running hc, ?_, ?_⟩
        · intro hd hq
          rcases hpos with ⟨-, hsum, rfl⟩ | ⟨-, hlt⟩
          · exact .of_options ht hopt (.inl (by omega)) hd
          · omega
        · intro hd hq
          rcases hpos with ⟨-, hsum, rfl⟩ | ⟨-, hlt⟩
          · refine .of_options ht hopt ?_ hd
            by_cases heq : q = s.file.pos + r.bytes.length
            · exact .inl (by omega)
            · exact .inr ⟨trivial, by omega⟩
          · omega

theorem inStep_of_halts {s' : State} (hf : s'.failure = none) : ∀ (rs : List Record) (s : State),
    s.file.rest = rs.flatMap Record.bytes → Halts cycle s s' → s'.started = s.started ++ offsets s.file.pos rs →
      s'.dataList = s.dataList ++ entries rs → AllInStep rs := by
  intro rs
  induction rs with
  | nil => exact fun _ _ _ _ _ => trivial
  | cons r rs ih =>
    intro s hrest hh hstarted hdata
    rw [List.flatMap_cons] at hrest
    obtain ⟨t, q, d, ht, hnext, hsame, hbehind⟩ := step_of_halts hrest hh hf
    obtain ⟨hgrow, hstart⟩ := halts_grow hnext
    rw [offsets] at hstarted
    rw [entries, ht] at hdata
    -- The data of the round are the first of those that are still to come.
    have hd : d = ⟨t.seq, t.payload⟩ := by
      have hpre : s.dataList ++ [d] <+: s.dataList ++ ⟨t.seq, t.payload⟩ :: entries rs := hdata ▸ hgrow
      exact (List.cons_prefix_cons.mp ((List.prefix_append_right_inj _).mp hpre)).1
    have hdata' : s'.dataList = (s.next q d).dataList ++ entries rs := by
      rw [hdata, hd]
      exact (List.append_assoc _ [_] _).symm
    cases rs with
    | nil =>
      refine ⟨?_, trivial⟩
      have hend : (s.next q d).file.rest = [] := by
        rcases hstart with ⟨hend, -⟩ | ⟨-, hmore⟩
        · exact hend
        · have hle := hmore.length_le
          rw [hstarted] at hle
          simp [State.next, offsets] at hle
      have hlen := congrArg List.length hrest
      have hq : s.file.content.length ≤ q := List.drop_eq_nil_iff.mp hend
      rw [File.rest, List.length_drop, List.length_append, length_record] at hlen
      simp only [List.flatMap_nil, List.length_nil] at hlen
      have := hbehind hd (by rw [length_record]; omega)
      simpa using this
    | cons r' rs =>
      have hq : q = s.file.pos + r.bytes.length := by
        rcases hstart with ⟨-, rfl⟩ | ⟨-, hmore⟩
        · have hlen := congrArg List.length hstarted
          simp [State.next, offsets] at hlen
        · rw [hstarted] at hmore
          have hpre := (List.prefix_append_right_inj s.started).mp (List.append_assoc s.started _ _ ▸ hmore)
          exact (List.cons_prefix_cons.mp (List.cons_prefix_cons.mp hpre).2).1
      have hrest' : (s.next q d).file.rest = (r' :: rs).flatMap Record.bytes := by
        rw [hq]
        exact File.rest_moved hrest
      refine ⟨by simpa using hsame hd hq, ih _ hrest' hnext ?_ hdata'⟩
      rw [hstarted, hq]
      exact (List.append_assoc _ [_] _).symm

theorem rest_start (globalHeader : {l : List UInt8 // l.length = GlobalHeaderSize}) (rs : List Record) :
    (start (fileBytes globalHeader rs)).file.rest = rs.flatMap Record.bytes := by
  show (globalHeader.val ++ _).drop 24 = _
  exact List.drop_left' globalHeader.property

theorem inStep_of_processed {globalHeader : {l : List UInt8 // l.length = GlobalHeaderSize}} {rs : List Record}
    (h : Processed globalHeader rs) : AllInStep rs := by
  obtain ⟨s, hh, hf, hstarted, -, hdata⟩ := h
  exact inStep_of_halts hf rs _ (rest_start globalHeader rs) hh hstarted hdata

/-- **The modular parser gives what it owes** exactly for captures of records in step. -/
theorem processed_iff (globalHeader : {l : List UInt8 // l.length = GlobalHeaderSize}) (rs : List Record) :
    Processed globalHeader rs ↔ AllInStep rs := by
  constructor
  · exact inStep_of_processed
  · intro hall
    obtain ⟨s, hh, hf, hstarted, hcount, hdata⟩ := processed_of_inStep rs _ (rest_start globalHeader rs) hall
    refine ⟨s, hh, hf, hstarted, ?_, hdata⟩
    rw [hcount]
    exact Nat.zero_add _

/-! ## Packets that are lost -/

theorem noOptions : ([] : List UInt8).length % 4 = 0 ∧ ([] : List UInt8).length ≤ 40 := by decide

def sampleFrame (transport : Transport) : Frame where
  macDest := ⟨[2, 0, 0, 0, 0, 1], rfl⟩
  macSource := ⟨[2, 0, 0, 0, 0, 2], rfl⟩
  dscpEcn := 0
  id := 1
  flagsOffset := 0
  ttl := 64
  headerChecksum := 0
  source := 0x0A000001
  dest := 0x0A000002
  ipOptions := ⟨[], noOptions⟩
  transport := transport
  padding := []

/-- A TCP segment with one byte of data. -/
def sampleSegment : Segment where
  sourcePort := 80
  destPort := 5000
  seq := 1
  ackNo := 1
  reserved := ⟨0, by decide⟩
  flags := 0x18
  windowSize := 1024
  checksum := 0
  urgentPtr := 0
  options := ⟨[], noOptions⟩
  payload := [0x41]

def tcpRecord : Record := ⟨0, 0, 55, sampleFrame (.tcp sampleSegment), by decide, by decide⟩

/-- A UDP datagram without data. -/
def udpRecord : Record := ⟨0, 0, 42, sampleFrame (.other ⟨0x11, by decide⟩ [0, 53, 0, 53, 0, 8, 0, 0]),
  by decide, by decide⟩

/-- The loop stops at a packet of another protocol, and the data of a TCP packet is not read. -/
theorem packets_lost : ¬ Processed ⟨List.replicate 24 0, rfl⟩ [udpRecord] ∧
    ¬ Processed ⟨List.replicate 24 0, rfl⟩ [tcpRecord] := by
  constructor
  · intro h
    exact (inStep_of_processed h).1
  · intro h
    rcases (inStep_of_processed h).1 with ⟨-, hpayload⟩ | ⟨hopt, -⟩
    · cases hpayload
    · exact hopt rfl

end Csapp.Capture.Modular
