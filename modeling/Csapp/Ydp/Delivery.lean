import Csapp.Lib.Run
import Csapp.Ydp.Packet
import Mathlib.Data.List.Nodup

/-!
# Ydp.Delivery — a message that is acknowledged has been received

One client sends messages, one server acknowledges packets.  The network keeps every datagram that was ever
sent to one of them, and delivers any of them at any time, any number of times or never.  An acknowledgement
carries the ID of a packet that the server has decoded (`Inv.toClient`), and the server decodes only what the
client has sent (`Inv.received`); so if no two transmissions have one ID, then the packet that was
acknowledged is the one that the client waits for.
-/

namespace Csapp.Ydp

open Csapp.Lib

/-- The size of the receive buffers. -/
def BUFSIZE : ℕ := 4096

/-- Where the client stands in `Send`: before a transmission, or before the look into its socket. -/
inductive Client
  | idle
  | sending (message : List UInt8)
  | waiting (message : List UInt8) (packet : YDPPacket)

  deriving DecidableEq

/-- Where the server stands in `RecvAndAck`: before a datagram, or before the acknowledgement. -/
inductive Server
  | idle
  | acking (packet : YDPPacket)
  deriving DecidableEq

/-- A packet and the call of `Send` that has sent it. -/
structure Transmission where
  call : ℕ
  packet : YDPPacket
  deriving DecidableEq

structure State where
  client : Client
  server : Server
  /-- how often `Send` has been called -/
  call : ℕ
  toServer : List (List UInt8)
  toClient : List (List UInt8)
  /-- what the server has decoded -/
  received : List YDPPacket
  sent : List Transmission
  /-- the calls of `Send` that have returned nil -/
  acked : List (ℕ × List UInt8)

def State.start : State := ⟨.idle, .idle, 0, [], [], [], [], []⟩

/-- What `Recvfrom` returns: nothing yet, another error, or a datagram. -/
inductive Recv
  | again
  | failed
  | datagram (b : List UInt8)

inductive Event
  /-- `Send` is called -/
  | send (message : List UInt8)
  /-- `SendYDP`, which may fail -/
  | transmit (timestamp : Int64) (ok : Bool)
  | clientRecv (r : Recv)
  /-- `RecvAndAck` receives a datagram -/
  | serverRecv (b : List UInt8)
  /-- its acknowledgement, which may fail to be sent -/
  | serverAck (ok : Bool)

/-- The acknowledgement of a packet. -/
def ackpacket (p : YDPPacket) : YDPPacket := ⟨p.ID, 0x01, 6, "server".toUTF8.toList⟩

def State.step (selfaddr dstaddr : SockaddrInet4) (s : State) : Event → Option State
  | .send message =>
    match s.client with
    | .idle => some { s with client := .sending message, call := s.call + 1 }
    | _ => none
  | .transmit timestamp ok =>
    match s.client with
    | .sending message =>
      let packet := NewYDPPacket message 0x01 selfaddr dstaddr timestamp
      if ok then
        some { s with client := .waiting message packet, toServer := packet.encode :: s.toServer,
                      sent := ⟨s.call, packet⟩ :: s.sent }
      else some { s with client := .idle }
    | _ => none
  | .clientRecv r =>
    match s.client, r with
    | .waiting message _, .again => some { s with client := .sending message }
    | .waiting _ _, .failed => some { s with client := .idle }
    | .waiting message packet, .datagram b =>
      if b ∈ s.toClient then
        match DecodeYDPPacket (b.take BUFSIZE) with
        | .error _ => some { s with client := .sending message }
        | .ok ack =>
          if ack.ID = packet.ID ∧ ack.Flags = 0x01 then
            some { s with client := .idle, acked := (s.call, message) :: s.acked }
          else some { s with client := .sending message }
      else none
    | _, _ => none
  | .serverRecv b =>
    match s.server with
    | .idle =>
      if b ∈ s.toServer then
        match DecodeYDPPacket (b.take BUFSIZE) with
        | .error _ => some s
        | .ok packet => some { s with server := .acking packet, received := packet :: s.received }
      else none
    | .acking _ => none
  | .serverAck ok =>
    match s.server with
    | .acking packet =>
      if ok then some { s with server := .idle, toClient := (ackpacket packet).encode :: s.toClient }
      else some { s with server := .idle }
    | .idle => none

def ydp (selfaddr dstaddr : SockaddrInet4) : System State Event Unit where
  init s := s = .start
  legal _ _ := True
  exec s e := (s.step selfaddr dstaddr e).map fun s' => ((), s')

/-! ## The invariant -/

variable {selfaddr dstaddr : SockaddrInet4} {s s' : State}

/-- What is in flight comes from what was sent and received. -/
structure Inv (s : State) : Prop where
  toServer : ∀ b ∈ s.toServer, ∃ t ∈ s.sent, b = t.packet.encode
  received : ∀ p ∈ s.received, ∃ t ∈ s.sent, DecodeYDPPacket (t.packet.encode.take BUFSIZE) = .ok p
  acking : ∀ p, s.server = .acking p → p ∈ s.received
  toClient : ∀ b ∈ s.toClient, ∃ p ∈ s.received, b = (ackpacket p).encode
  waiting : ∀ message packet, s.client = .waiting message packet →
    packet.Message = message ∧ ∃ t ∈ s.sent, t.call = s.call ∧ t.packet = packet
  acked : ∀ x ∈ s.acked, ∃ t ∈ s.sent, t.call = x.1 ∧ t.packet.Message = x.2 ∧
    ∃ p ∈ s.received, p.ID = t.packet.ID

/-- A datagram that was cut off keeps its ID. -/
theorem ID_of_decode_take {q p : YDPPacket} (h : DecodeYDPPacket (q.encode.take BUFSIZE) = .ok p) :
    p.ID = q.ID := by
  have hcut := congrArg (List.take 4) (encode_of_decode h).1
  rw [List.take_take, show min 4 BUFSIZE = 4 from rfl] at hcut
  have hp : uint32 (p.encode.take 4) = p.ID := uint32_be32 p.ID
  have hq : uint32 (q.encode.take 4) = q.ID := uint32_be32 q.ID
  rw [← hp, hcut, hq]

/-- An acknowledgement is decoded as it was sent. -/
theorem decode_ackpacket (p : YDPPacket) :
    DecodeYDPPacket ((ackpacket p).encode.take BUFSIZE) = .ok (ackpacket p) := by
  have hm : (ackpacket p).Message.length = 6 := by
    show ("server".toUTF8.toList).length = 6
    decide +kernel
  have hlen : (ackpacket p).encode.length ≤ BUFSIZE := by
    rw [length_encode, hm]
    decide
  rw [List.take_of_length_le hlen, decode_encode, if_pos]
  rw [hm]
  rfl

namespace Inv

theorem start : Inv State.start := by
  constructor
  · exact fun b hb => absurd hb List.not_mem_nil
  · exact fun p hp => absurd hp List.not_mem_nil
  · intro p hp
    cases hp
  · exact fun b hb => absurd hb List.not_mem_nil
  · intro message packet hw
    cases hw
  · exact fun x hx => absurd hx List.not_mem_nil

/-- A step of the client alone. -/
theorem client (h : Inv s) {c : Client} {n : ℕ} (hc : ∀ message packet, c ≠ .waiting message packet) :
    Inv { s with client := c, call := n } :=
  ⟨h.toServer, h.received, h.acking, h.toClient, fun message packet hw => absurd hw (hc message packet), h.acked⟩

theorem transmit (h : Inv s) {message : List UInt8} {packet : YDPPacket} (hm : packet.Message = message) :
    Inv { s with client := .waiting message packet, toServer := packet.encode :: s.toServer,
                 sent := ⟨s.call, packet⟩ :: s.sent } := by
  constructor
  · intro b hb
    rcases List.mem_cons.mp hb with rfl | hb
    · exact ⟨_, List.mem_cons_self, rfl⟩
    · obtain ⟨t, ht, he⟩ := h.toServer b hb
      exact ⟨t, List.mem_cons_of_mem _ ht, he⟩
  · intro p hp
    obtain ⟨t, ht, he⟩ := h.received p hp
    exact ⟨t, List.mem_cons_of_mem _ ht, he⟩
  · exact h.acking
  · exact h.toClient
  · intro message' packet' hw
    obtain ⟨rfl, rfl⟩ := Client.waiting.inj hw
    exact ⟨hm, _, List.mem_cons_self, rfl, rfl⟩
  · intro x hx
    obtain ⟨t, ht, he⟩ := h.acked x hx
    exact ⟨t, List.mem_cons_of_mem _ ht, he⟩

/-- The client is acknowledged. -/
theorem ack (h : Inv s) {message b : List UInt8} {packet ack : YDPPacket}
    (hw : s.client = .waiting message packet) (hb : b ∈ s.toClient)
    (hd : DecodeYDPPacket (b.take BUFSIZE) = .ok ack) (hid : ack.ID = packet.ID) :
    Inv { s with client := .idle, acked := (s.call, message) :: s.acked } := by
  obtain ⟨hmessage, t, ht, hcall, hpacket⟩ := h.waiting message packet hw
  obtain ⟨p, hp, rfl⟩ := h.toClient b hb
  rw [decode_ackpacket] at hd
  obtain rfl := Except.ok.inj hd
  refine ⟨h.toServer, h.received, h.acking, h.toClient, fun _ _ he => (by cases he), ?_⟩
  intro x hx
  rcases List.mem_cons.mp hx with rfl | hx
  · exact ⟨t, ht, hcall, hpacket ▸ hmessage, p, hp, hpacket ▸ hid⟩
  · exact h.acked x hx

/-- The server decodes a datagram. -/
theorem recv (h : Inv s) {b : List UInt8} {packet : YDPPacket} (hb : b ∈ s.toServer)
    (hd : DecodeYDPPacket (b.take BUFSIZE) = .ok packet) :
    Inv { s with server := .acking packet, received := packet :: s.received } := by
  obtain ⟨t, ht, rfl⟩ := h.toServer b hb
  constructor
  · exact h.toServer
  · intro p hp
    rcases List.mem_cons.mp hp with rfl | hp
    · exact ⟨t, ht, hd⟩
    · exact h.received p hp
  · intro p hp
    obtain rfl := Server.acking.inj hp
    exact List.mem_cons_self
  · intro b' hb'
    obtain ⟨p, hp, he⟩ := h.toClient b' hb'
    exact ⟨p, List.mem_cons_of_mem _ hp, he⟩
  · exact h.waiting
  · intro x hx
    obtain ⟨t', ht', hc, hm, p, hp, he⟩ := h.acked x hx
    exact ⟨t', ht', hc, hm, p, List.mem_cons_of_mem _ hp, he⟩

/-- The server answers the packet that it has decoded, or fails to. -/
theorem answer (h : Inv s) {packet : YDPPacket} (hs : s.server = .acking packet) {l : List (List UInt8)}
    (hl : l = s.toClient ∨ l = (ackpacket packet).encode :: s.toClient) :
    Inv { s with server := .idle, toClient := l } := by
  refine ⟨h.toServer, h.received, fun p hp => (by cases hp), ?_, h.waiting, h.acked⟩
  intro b hb
  rcases hl with rfl | rfl
  · exact h.toClient b hb
  · rcases List.mem_cons.mp hb with rfl | hb
    · exact ⟨packet, h.acking packet hs, rfl⟩
    · exact h.toClient b hb

theorem step (h : Inv s) {e : Event} (he : s.step selfaddr dstaddr e = some s') : Inv s' := by
  cases e with
  | send message =>
    cases hc : s.client with
    | idle =>
      simp only [State.step, hc, Option.some.injEq] at he
      exact he ▸ h.client (fun _ _ hw => by cases hw)
    | sending m => simp only [State.step, hc, reduceCtorEq] at he
    | waiting m packet => simp only [State.step, hc, reduceCtorEq] at he
  | transmit timestamp ok =>
    cases hc : s.client with
    | idle => simp only [State.step, hc, reduceCtorEq] at he
    | sending m =>
      cases ok with
      | true =>
        simp only [State.step, hc, if_true, Option.some.injEq] at he
        exact he ▸ h.transmit rfl
      | false =>
        simp only [State.step, hc, Bool.false_eq_true, if_false, Option.some.injEq] at he
        exact he ▸ h.client (fun _ _ hw => by cases hw)
    | waiting m packet => simp only [State.step, hc, reduceCtorEq] at he
  | clientRecv r =>
    cases hc : s.client with
    | idle => simp only [State.step, hc, reduceCtorEq] at he
    | sending m => simp only [State.step, hc, reduceCtorEq] at he
    | waiting m packet =>
      cases r with
      | again =>
        simp only [State.step, hc, Option.some.injEq] at he
        exact he ▸ h.client (fun _ _ hw => by cases hw)
      | failed =>
        simp only [State.step, hc, Option.some.injEq] at he
        exact he ▸ h.client (fun _ _ hw => by cases hw)
      | datagram b =>
        simp only [State.step, hc] at he
        obtain ⟨hb, he⟩ := Option.ite_none_right_eq_some.mp he
        cases hd : DecodeYDPPacket (b.take BUFSIZE) with
        | error err =>
          simp only [hd, Option.some.injEq] at he
          exact he ▸ h.client (fun _ _ hw => by cases hw)
        | ok ack =>
          by_cases hack : ack.ID = packet.ID ∧ ack.Flags = 0x01
          · simp only [hd, if_pos hack, Option.some.injEq] at he
            exact he ▸ h.ack hc hb hd hack.1
          · simp only [hd, if_neg hack, Option.some.injEq] at he
            exact he ▸ h.client (fun _ _ hw => by cases hw)
  | serverRecv b =>
    cases hs : s.server with
    | idle =>
      simp only [State.step, hs] at he
      obtain ⟨hb, he⟩ := Option.ite_none_right_eq_some.mp he
      cases hd : DecodeYDPPacket (b.take BUFSIZE) with
      | error err =>
        simp only [hd, Option.some.injEq] at he
        exact he ▸ h
      | ok packet =>
        simp only [hd, Option.some.injEq] at he
        exact he ▸ h.recv hb hd
    | acking packet => simp only [State.step, hs, reduceCtorEq] at he
  | serverAck ok =>
    cases hs : s.server with
    | idle => simp only [State.step, hs, reduceCtorEq] at he
    | acking packet =>
      cases ok with
      | true =>
        simp only [State.step, hs, if_true, Option.some.injEq] at he
        exact he ▸ h.answer hs (Or.inr rfl)
      | false =>
        simp only [State.step, hs, Bool.false_eq_true, if_false, Option.some.injEq] at he
        exact he ▸ h.answer hs (Or.inl rfl)

theorem reach (hs : (ydp selfaddr dstaddr).Reach s) : Inv s := by
  refine System.Reach.induct ?_ ?_ hs
  · rintro t rfl
    exact start
  · intro t e r t' ht _ he
    obtain ⟨u, hu, hr⟩ := Option.map_eq_some_iff.mp he
    obtain ⟨-, rfl⟩ := Prod.mk.inj hr
    exact ht.step hu

end Inv

/-- **Delivery**: if the transmissions have different IDs, then a message of at most `BUFSIZE` bytes with its
header, for which `Send` has returned nil, has been received in a packet of that call of `Send`. -/
theorem delivered (hs : (ydp selfaddr dstaddr).Reach s) (hids : (s.sent.map (·.packet.ID)).Nodup) {n : ℕ}
    {message : List UInt8} (hacked : (n, message) ∈ s.acked) (hlen : message.length + 7 ≤ BUFSIZE) :
    ∃ t ∈ s.sent, t.call = n ∧ t.packet.Message = message ∧ t.packet ∈ s.received := by
  have hinv := Inv.reach hs
  obtain ⟨t, ht, hcall, hmessage, p, hp, hid⟩ := hinv.acked _ hacked
  obtain ⟨t', ht', hd⟩ := hinv.received p hp
  -- the packet that the server has decoded is the one that was acknowledged
  have hsame : t' = t := List.inj_on_of_nodup_map hids ht' ht ((ID_of_decode_take hd).symm.trans hid)
  rw [hsame, List.take_of_length_le (by rw [length_encode, hmessage]; exact hlen), decode_encode] at hd
  by_cases hm : t.packet.Message.length = t.packet.Length.toNat
  · rw [if_pos hm] at hd
    obtain rfl := Except.ok.inj hd
    exact ⟨t, ht, hcall, hmessage, hp⟩
  · rw [if_neg hm] at hd
    cases hd

/-! ## Example -/

def sampleMessage : List UInt8 := "Hi guys".toUTF8.toList

def samplePacket (timestamp : Int64) : YDPPacket :=
  NewYDPPacket sampleMessage 0x01 (sampleAddr 5432) (sampleAddr 64403) timestamp

/-- The first packet is lost, the second one is acknowledged after the third one was sent. -/
def sampleRun : List Event :=
  [.send sampleMessage, .transmit 1 true, .clientRecv .again, .transmit 4 true,
    .serverRecv (samplePacket 4).encode, .clientRecv .again, .transmit 7 true, .serverAck true,
    .clientRecv (.datagram (ackpacket (samplePacket 4)).encode), .transmit 10 true,
    .serverRecv (samplePacket 10).encode, .serverAck true,
    .clientRecv (.datagram (ackpacket (samplePacket 10)).encode)]

theorem delivered_sample : ∃ s, (ydp (sampleAddr 5432) (sampleAddr 64403)).after .start sampleRun = some s ∧
    ∃ t ∈ s.sent, t.call = 1 ∧ t.packet.Message = sampleMessage ∧ t.packet ∈ s.received := by
  have hrun : ((ydp (sampleAddr 5432) (sampleAddr 64403)).after .start sampleRun).any
      (fun s => (s.sent.map (·.packet.ID)).Nodup ∧ (1, sampleMessage) ∈ s.acked) = true := by
    decide +kernel
  obtain ⟨s, hs, hreach, hids, hacked⟩ := System.Reach.of_after (fun _ _ _ => trivial) rfl hrun
  exact ⟨s, hs, delivered hreach hids hacked (by decide +kernel)⟩

end Csapp.Ydp
