import Csapp.Lib.Buffer
import Csapp.Proxy.Doit

/-!
# Proxy.Tunnel — what the tunnel leaves in `obj`

The loop of `doit` that relays the response, on the array `obj` itself.  A block is copied behind the last one as long
as it fits; from then on the loop only counts.  The array holds what has been relayed in front, as long as the
count is not too large for it (`Capturing`), so that an object is stored whole or not at all (`tunnel_captures`).
`Proxy.Doit` has the same loop without the array (`relay_store`).
-/

namespace Csapp.Proxy

open Csapp.Lib

/-- What `rio_readn` reads at once. -/
def Chunk : Type := { l : List UInt8 // l.length ≤ MAXLINE }

/-- The array `obj`, which is not initialised. -/
def Obj : Type := { l : List UInt8 // l.length = MAX_OBJECT_SIZE }

/-- What happens in one round of the loop: a read, which may fail, and how many bytes the client takes. -/
structure Round where
  read : Option Chunk
  accepts : ℕ

/-- What the client has got, and the object and the size that `cache_put` is called with. -/
structure Outcome where
  sent : List UInt8
  put : Option (List UInt8 × ℕ)

/-- The loop and what follows it, until it ends or waits for the host; `none` is a copy behind the end of `obj`.  A
response has less than `2 ^ 64` bytes, so that `obj_size` does not wrap. -/
def tunnelRounds : List Round → List UInt8 → ℕ → List UInt8 → Option Outcome
  | [], _, _, sent => some ⟨sent, none⟩
  | r :: rounds, obj, obj_size, sent =>
    match r.read with
    | none => some ⟨sent, none⟩
    | some buf =>
      let n := buf.1.length
      let sent := sent ++ buf.1.take r.accepts
      if r.accepts < n then some ⟨sent, none⟩
      else
        match (if obj_size + n ≤ MAX_OBJECT_SIZE then writeAt obj obj_size buf.1 else some obj) with
        | none => none
        | some obj =>
          let obj_size := obj_size + n
          if n = MAXLINE then tunnelRounds rounds obj obj_size sent
          else some ⟨sent, if obj_size ≤ MAX_OBJECT_SIZE then some (obj, obj_size) else none⟩

namespace Round

/-- The bytes of a block. -/
def bytes (r : Round) : List UInt8 := (r.read.map Subtype.val).getD []

/-- The read does not fail, and the client takes all of it. -/
def Ok (r : Round) : Prop := r.read.isSome ∧ r.bytes.length ≤ r.accepts

/-- A round after which the loop goes on. -/
def Full (r : Round) : Prop := r.Ok ∧ r.bytes.length = MAXLINE

/-- The round in which the response ends. -/
def Last (r : Round) : Prop := r.Ok ∧ r.bytes.length < MAXLINE

end Round

/-- The client has got the response, and it is stored if and only if it fits, with its bytes and its length. -/
structure Outcome.Captures (out : Outcome) (response : List UInt8) : Prop where
  sent : out.sent = response
  put : out.put.isSome ↔ response.length ≤ MAX_OBJECT_SIZE
  stored : ∀ obj obj_size, out.put = some (obj, obj_size) → obj_size = response.length ∧ obj.take obj_size = response

/-- The array holds what has been sent, as long as that fits. -/
structure Capturing (obj : List UInt8) (obj_size : ℕ) (sent : List UInt8) : Prop where
  length : obj.length = MAX_OBJECT_SIZE
  size : obj_size = sent.length
  bytes : obj_size ≤ MAX_OBJECT_SIZE → obj.take obj_size = sent

theorem Obj.capturing (obj : Obj) : Capturing obj.1 0 [] := ⟨obj.2, rfl, fun _ => rfl⟩

section Loop

variable {obj sent : List UInt8} {obj_size : ℕ} {r : Round} {rounds : List Round}

/-- A block is copied, or counted. -/
theorem Capturing.copy (h : Capturing obj obj_size sent) (buf : List UInt8) :
    ∃ obj', (if obj_size + buf.length ≤ MAX_OBJECT_SIZE then writeAt obj obj_size buf else some obj) = some obj' ∧
      Capturing obj' (obj_size + buf.length) (sent ++ buf) := by
  have hsize : obj_size + buf.length = (sent ++ buf).length := by rw [List.length_append, h.size]
  by_cases hfit : obj_size + buf.length ≤ MAX_OBJECT_SIZE
  · have hwrite := writeAt_le (s := buf) (h.length.symm ▸ hfit)
    refine ⟨_, by rw [if_pos hfit, hwrite], (length_writeAt hwrite).trans h.length, hsize, fun _ => ?_⟩
    rw [take_writeAt hwrite, h.bytes (Nat.le_trans (Nat.le_add_right _ _) hfit)]
  · exact ⟨obj, if_neg hfit, h.length, hsize, fun hle => absurd hle hfit⟩

/-- A failure ends the loop, and nothing is stored. -/
theorem tunnelRounds_failed (obj : List UInt8) (obj_size : ℕ) (sent : List UInt8) (h : ¬ r.Ok)
    (rounds : List Round) : ∃ sent', tunnelRounds (r :: rounds) obj obj_size sent = some ⟨sent', none⟩ := by
  obtain ⟨read, accepts⟩ := r
  cases read with
  | none => exact ⟨sent, rfl⟩
  | some buf =>
    have hlt : accepts < buf.1.length := by
      by_contra hle
      exact h ⟨rfl, Nat.le_of_not_lt hle⟩
    exact ⟨sent ++ buf.1.take accepts, by rw [tunnelRounds]; exact if_pos hlt⟩

/-- A round in which nothing fails. -/
theorem tunnelRounds_ok (h : Capturing obj obj_size sent) (hr : r.Ok) (rounds : List Round) :
    ∃ obj', Capturing obj' (obj_size + r.bytes.length) (sent ++ r.bytes) ∧
      tunnelRounds (r :: rounds) obj obj_size sent =
        if r.bytes.length = MAXLINE then
          tunnelRounds rounds obj' (obj_size + r.bytes.length) (sent ++ r.bytes)
        else some ⟨sent ++ r.bytes, if obj_size + r.bytes.length ≤ MAX_OBJECT_SIZE
          then some (obj', obj_size + r.bytes.length) else none⟩ := by
  obtain ⟨read, accepts⟩ := r
  obtain ⟨hsome, hle⟩ := hr
  cases read with
  | none => cases hsome
  | some buf =>
    have hle : buf.1.length ≤ accepts := hle
    obtain ⟨obj', hcopy, hcapturing⟩ := h.copy buf.1
    refine ⟨obj', hcapturing, ?_⟩
    rw [tunnelRounds]
    dsimp only
    rw [if_neg (Nat.not_lt.mpr hle), hcopy, List.take_of_length_le hle]
    rfl

/-- No round copies behind the end of the array. -/
theorem tunnelRounds_total : ∀ (rounds : List Round) {obj sent : List UInt8} {obj_size : ℕ},
    Capturing obj obj_size sent → ∃ out, tunnelRounds rounds obj obj_size sent = some out
  | [], _, _, _, _ => ⟨_, rfl⟩
  | r :: rounds, obj, sent, obj_size, h => by
    by_cases hr : r.Ok
    · obtain ⟨obj', hcapturing, heq⟩ := tunnelRounds_ok h hr rounds
      rw [heq]
      by_cases hfull : r.bytes.length = MAXLINE
      · rw [if_pos hfull]
        exact tunnelRounds_total rounds hcapturing
      · exact ⟨_, if_neg hfull⟩
    · obtain ⟨sent', heq⟩ := tunnelRounds_failed obj obj_size sent hr rounds
      exact ⟨_, heq⟩

/-- The rounds with full blocks. -/
theorem tunnelRounds_full : ∀ (full : List Round) {obj sent : List UInt8} {obj_size : ℕ},
    Capturing obj obj_size sent → (∀ r ∈ full, r.Full) → ∀ rounds,
      ∃ obj' obj_size', Capturing obj' obj_size' (sent ++ full.flatMap Round.bytes) ∧
        tunnelRounds (full ++ rounds) obj obj_size sent =
          tunnelRounds rounds obj' obj_size' (sent ++ full.flatMap Round.bytes)
  | [], obj, sent, obj_size, h, _, rounds => by
    rw [List.flatMap_nil, List.append_nil]
    exact ⟨obj, obj_size, h, rfl⟩
  | r :: full, obj, sent, obj_size, h, hfull, rounds => by
    obtain ⟨hok, hlen⟩ := hfull r List.mem_cons_self
    obtain ⟨obj₁, h1, h2⟩ := tunnelRounds_ok h hok (full ++ rounds)
    obtain ⟨obj', obj_size', h3, h4⟩ :=
      tunnelRounds_full full h1 (fun q hq => hfull q (List.mem_cons_of_mem _ hq)) rounds
    rw [List.flatMap_cons, ← List.append_assoc]
    refine ⟨obj', obj_size', h3, ?_⟩
    rw [List.cons_append, h2, if_pos hlen, h4]

/-- The last round, and what is stored. -/
theorem tunnelRounds_last (h : Capturing obj obj_size sent) (hr : r.Last) (rounds : List Round) :
    ∃ out, tunnelRounds (r :: rounds) obj obj_size sent = some out ∧ out.Captures (sent ++ r.bytes) := by
  obtain ⟨obj', hcapturing, heq⟩ := tunnelRounds_ok h hr.1 rounds
  refine ⟨_, by rw [heq, if_neg (Nat.ne_of_lt hr.2)], rfl, ?_, ?_⟩
  · dsimp only
    rw [← hcapturing.size]
    by_cases hfit : obj_size + r.bytes.length ≤ MAX_OBJECT_SIZE
    · rw [if_pos hfit]
      exact iff_of_true rfl hfit
    · rw [if_neg hfit]
      exact iff_of_false Bool.false_ne_true hfit
  · intro obj'' obj_size'' hput
    obtain ⟨hfit, hput⟩ := Option.ite_none_right_eq_some.mp hput
    obtain ⟨rfl, rfl⟩ := Prod.mk.inj (Option.some.inj hput)
    exact ⟨hcapturing.size, hcapturing.bytes hfit⟩

end Loop

/-- **The tunnel** never copies behind the end of `obj`.  Where the response ends, the client has got all of it, and
it is stored if and only if it is not too long; after an error nothing is stored. -/
theorem tunnel_captures (obj : Obj) (rounds : List Round) :
    ∃ out, tunnelRounds rounds obj.1 0 [] = some out ∧
      (∀ full last rest, rounds = full ++ last :: rest → (∀ r ∈ full, r.Full) → last.Last →
        out.Captures (full.flatMap Round.bytes ++ last.bytes)) ∧
      ∀ full r rest, rounds = full ++ r :: rest → (∀ q ∈ full, q.Full) → ¬ r.Ok → out.put = none := by
  obtain ⟨out, hout⟩ := tunnelRounds_total rounds obj.capturing
  refine ⟨out, hout, ?_, ?_⟩
  · rintro full last rest rfl hfull hlast
    obtain ⟨obj', obj_size', h1, h2⟩ := tunnelRounds_full full obj.capturing hfull (last :: rest)
    obtain ⟨out', h3, h4⟩ := tunnelRounds_last h1 hlast rest
    obtain rfl := Option.some.inj (h3.symm.trans (h2.symm.trans hout))
    exact h4
  · rintro full r rest rfl hfull hr
    obtain ⟨obj', obj_size', -, h2⟩ := tunnelRounds_full full obj.capturing hfull (r :: rest)
    obtain ⟨sent', h3⟩ := tunnelRounds_failed obj' obj_size' _ hr rest
    rw [← Option.some.inj (h3.symm.trans (h2.symm.trans hout))]

/-! ## The loop without the array -/

/-- What `cache_put` finds at its arguments. -/
def Outcome.value (out : Outcome) : Option (List UInt8) := out.put.map fun x => x.1.take x.2

/-- At most `n` rounds with a host that answers with `response` and a client that takes some blocks. -/
def remoteRounds : ℕ → List UInt8 → Bool → ℕ → List Round
  | 0, _, _, _ => []
  | n + 1, response, failed, takes =>
    if (response.take MAXLINE).length < MAXLINE ∧ failed = true then [⟨none, 0⟩]
    else ⟨some ⟨response.take MAXLINE, List.length_take_le _ _⟩, if takes = 0 then 0 else MAXLINE⟩ ::
      remoteRounds n (response.drop MAXLINE) failed (takes - 1)

/-- Only a client that takes no block fails, and it does if there is something in the block. -/
theorem Round.ok_takes_iff (buf : Chunk) (takes : ℕ) :
    (Round.mk (some buf) (if takes = 0 then 0 else MAXLINE)).Ok ↔ ¬ (buf.1 ≠ [] ∧ takes = 0) := by
  constructor
  · rintro ⟨-, hle⟩ ⟨hne, htakes⟩
    have hle : buf.1.length ≤ if takes = 0 then 0 else MAXLINE := hle
    rw [if_pos htakes] at hle
    exact hne (List.eq_nil_of_length_eq_zero (Nat.le_zero.mp hle))
  · intro h
    refine ⟨rfl, ?_⟩
    show buf.1.length ≤ if takes = 0 then 0 else MAXLINE
    by_cases htakes : takes = 0
    · have hnil := not_not.mp fun hne => h ⟨hne, htakes⟩
      rw [hnil]
      exact Nat.zero_le _
    · rw [if_neg htakes]
      exact buf.2

/-- The array holds in front what `tunnel` has in its list. -/
theorem tunnelRounds_remote : ∀ (n : ℕ) (response : List UInt8) (failed : Bool) (takes : ℕ)
    {obj obj' sent : List UInt8} {obj_size : ℕ}, Capturing obj obj_size sent →
    (obj_size ≤ MAX_OBJECT_SIZE → obj' = sent) →
    ∃ out, tunnelRounds (remoteRounds n response failed takes) obj obj_size sent = some out ∧
      out.value = (tunnel n response failed takes obj' obj_size).bind fun x =>
        if x.2 ≤ MAX_OBJECT_SIZE then some (x.1.take x.2) else none
  | 0, _, _, _, _, _, sent, _, _, _ => ⟨⟨sent, none⟩, rfl, rfl⟩
  | n + 1, response, failed, takes, obj, obj', sent, obj_size, h, hobj => by
    rw [remoteRounds, tunnel]
    by_cases herror : (response.take MAXLINE).length < MAXLINE ∧ failed = true
    · rw [if_pos herror, if_pos herror]
      exact ⟨_, rfl, rfl⟩
    · rw [if_neg herror, if_neg herror]
      set r : Round := ⟨some ⟨response.take MAXLINE, List.length_take_le _ _⟩, if takes = 0 then 0 else MAXLINE⟩
      by_cases hwrite : response.take MAXLINE ≠ [] ∧ takes = 0
      · rw [if_pos hwrite]
        have hr : ¬ r.Ok := fun hr => (Round.ok_takes_iff _ takes).mp hr hwrite
        obtain ⟨sent', heq⟩ := tunnelRounds_failed obj obj_size sent hr _
        exact ⟨_, heq, rfl⟩
      · have hr : r.Ok := (Round.ok_takes_iff _ takes).mpr hwrite
        obtain ⟨obj₁, h1, h2⟩ := tunnelRounds_ok h hr (remoteRounds n (response.drop MAXLINE) failed (takes - 1))
        have hbytes : r.bytes = response.take MAXLINE := rfl
        rw [hbytes] at h1 h2
        rw [if_neg hwrite, h2]
        -- what `tunnel` adds to its list
        have hadd : obj_size + (response.take MAXLINE).length ≤ MAX_OBJECT_SIZE →
            (if obj_size + (response.take MAXLINE).length ≤ MAX_OBJECT_SIZE then obj' ++ response.take MAXLINE
              else obj') = sent ++ response.take MAXLINE := by
          intro hfit
          rw [if_pos hfit, hobj (Nat.le_trans (Nat.le_add_right _ _) hfit)]
        by_cases hfull : (response.take MAXLINE).length = MAXLINE
        · rw [if_pos hfull]
          dsimp only
          rw [if_pos hfull]
          exact tunnelRounds_remote n _ _ _ h1 hadd
        · rw [if_neg hfull]
          dsimp only
          rw [if_neg hfull, Option.bind_some]
          refine ⟨_, rfl, ?_⟩
          rw [Outcome.value]
          by_cases hfit : obj_size + (response.take MAXLINE).length ≤ MAX_OBJECT_SIZE
          · rw [if_pos hfit, if_pos hfit, hadd hfit, h1.size, Option.map_some, ← h1.size, h1.bytes hfit, h1.size,
              List.take_length]
          · rw [if_neg hfit, if_neg hfit, Option.map_none]

/-- The cache after the loop. -/
def Outcome.store (out : Outcome) (c : Cache) (uri : Key) (now : ℤ) : Cache :=
  match out.value with
  | none => c
  | some v => if h : v.length ≤ MAX_OBJECT_SIZE then c.cache_put uri ⟨v, h⟩ now else c

/-- **`relay`** leaves the cache that the loop on the array leaves. -/
theorem relay_store {c : Cache} {req : Request} {p : Parsed} (hopened : req.remote.opened = true)
    (hfits : (requesthdrs p.host p.path p.extra_hdrs).length < MAXLINE) (hwritten : req.remote.written = true)
    (obj : Obj) :
    ∃ out, tunnelRounds (remoteRounds (req.remote.response.length / MAXLINE + 1) req.remote.response
        req.remote.failed req.takes) obj.1 0 [] = some out ∧
      (relay c req p).map Prod.snd = some (out.store c p.uri req.putClock) := by
  obtain ⟨out, h1, h2⟩ := tunnelRounds_remote (req.remote.response.length / MAXLINE + 1) req.remote.response
    req.remote.failed req.takes obj.capturing (fun _ => rfl : _ → [] = [])
  refine ⟨out, h1, ?_⟩
  rw [relay, if_neg (by rw [hopened]; exact Bool.noConfusion), if_neg (Nat.not_le.mpr hfits),
    if_neg (by rw [hwritten]; exact Bool.noConfusion), Outcome.store, h2]
  cases tunnel (req.remote.response.length / MAXLINE + 1) req.remote.response req.remote.failed req.takes [] 0 with
  | none => rfl
  | some x =>
    rw [Option.bind_some]
    dsimp only
    by_cases hfit : x.2 ≤ MAX_OBJECT_SIZE
    · rw [if_pos hfit, dif_pos hfit]
      dsimp only
      rw [dif_pos ((List.length_take_le _ _).trans hfit), Option.map_some]
    · rw [if_neg hfit, dif_neg hfit, Option.map_some]

end Csapp.Proxy
