import Csapp.Proxy.Doit

/-!
# Proxy.Origin — whose response the cache gives back

The cache is keyed by the URI, but a `Host:` header changes the host that is asked.  A hit returns the
latest stored response for the URI (`Held`), which was relayed from the host that the request determines as
long as the requests for a URI determine one host (`hits_transparent`), and not in general
(`not_transparent`).
-/

namespace Csapp.Proxy

open Csapp.Lib

/-- The latest response for the URI that was small enough to be stored. -/
def latestStored (log : List Relay) (uri : Key) : Option Relay :=
  log.find? fun relay => relay.uri = uri && relay.response.length ≤ MAX_OBJECT_SIZE

theorem latestStored_mem {log : List Relay} {uri : Key} {relay : Relay} (h : latestStored log uri = some relay) :
    relay ∈ log ∧ relay.uri = uri := by
  refine ⟨List.mem_of_find?_eq_some h, ?_⟩
  have hp := List.find?_some h
  rw [Bool.and_eq_true, decide_eq_true_iff] at hp
  exact hp.1

/-- **A hit is transparent**: its bytes are a response that has been relayed for the host and the path that
the request determines. -/
def ReadResult.Transparent (w : World) : ReadResult → Reply → Prop
  | .ok p, .hit obj => ∃ relay ∈ w.log,
    relay.origin = parse_host p.host ∧ relay.path = p.path ∧ relay.response = obj.1
  | _, _ => True

/-- If the URI is in the cache, then the request determines the host from which its response came. -/
def ReadResult.SameHost (w : World) : ReadResult → Prop
  | .ok p => w.cache.cache_find p.uri ≠ none →
    ∀ relay ∈ latestStored w.log p.uri, relay.origin = parse_host p.host
  | _ => True

instance (w : World) : ∀ rr reply, Decidable (ReadResult.Transparent w rr reply)
  | .ok p, .hit obj => inferInstanceAs (Decidable (∃ relay ∈ w.log,
      relay.origin = parse_host p.host ∧ relay.path = p.path ∧ relay.response = obj.1))
  | .ok _, .failed => isTrue trivial
  | .ok _, .relayed _ => isTrue trivial
  | .failed, _ => isTrue trivial
  | .overflow, _ => isTrue trivial

instance (w : World) : ∀ rr, Decidable (ReadResult.SameHost w rr)
  | .ok p => inferInstanceAs (Decidable (w.cache.cache_find p.uri ≠ none →
      ∀ relay ∈ latestStored w.log p.uri, relay.origin = parse_host p.host))
  | .failed => isTrue trivial
  | .overflow => isTrue trivial

/-! ## Relaying -/

theorem take_of_not_full {response : List UInt8} (h : ¬ (response.take MAXLINE).length = MAXLINE) :
    response.take MAXLINE = response := by
  refine List.take_of_length_le ?_
  rw [List.length_take] at h
  omega

/-- A response that is relayed to its end: `obj` has all of it, if it is not too long. -/
theorem tunnel_spec : ∀ (n : ℕ) (response : List UInt8) (failed : Bool) (takes : ℕ) (obj : List UInt8)
    (obj_size : ℕ) {obj' : List UInt8} {size : ℕ},
    tunnel n response failed takes obj obj_size = some (obj', size) →
    size = obj_size + response.length ∧ (size ≤ MAX_OBJECT_SIZE → obj' = obj ++ response)
  | 0, _, _, _, _, _, _, _, h => by cases h
  | n + 1, response, failed, takes, obj, obj_size, obj', size, h => by
    have hlen : (response.take MAXLINE).length + (response.drop MAXLINE).length = response.length := by
      rw [← List.length_append, List.take_append_drop]
    rw [tunnel] at h
    split_ifs at h with h1 h2 hfit hfull hlast
    · -- a full block that fits
      obtain ⟨h6, h7⟩ := tunnel_spec n _ _ _ _ _ h
      refine ⟨by omega, fun hs => ?_⟩
      rw [h7 hs, List.append_assoc, List.take_append_drop]
    · obtain ⟨rfl, rfl⟩ := Prod.mk.inj (Option.some.inj h)
      rw [take_of_not_full hfull]
      exact ⟨rfl, fun _ => rfl⟩
    · -- nothing fits from here on
      obtain ⟨h6, -⟩ := tunnel_spec n _ _ _ _ _ h
      exact ⟨by omega, fun hs => by omega⟩
    · obtain ⟨rfl, rfl⟩ := Prod.mk.inj (Option.some.inj h)
      refine ⟨by rw [take_of_not_full hlast], fun hs => absurd hs hfit⟩

/-- What is done after a miss: the response is relayed, and stored if it is not too long. -/
theorem relay_cases {c c' : Cache} {r : Request} {p : Parsed} {reply : Reply}
    (h : relay c r p = some (reply, c')) :
    (reply = .failed ∧ c' = c) ∨
      (reply = .relayed ⟨p.uri, parse_host p.host, p.path, r.remote.response⟩ ∧
        ((MAX_OBJECT_SIZE < r.remote.response.length ∧ c' = c) ∨
          ∃ obj : Value, obj.1 = r.remote.response ∧ c' = c.cache_put p.uri obj r.putClock)) := by
  rw [relay] at h
  split_ifs at h
  · obtain ⟨rfl, rfl⟩ := Prod.mk.inj (Option.some.inj h)
    exact Or.inl ⟨rfl, rfl⟩
  · obtain ⟨rfl, rfl⟩ := Prod.mk.inj (Option.some.inj h)
    exact Or.inl ⟨rfl, rfl⟩
  · cases ht : tunnel (r.remote.response.length / MAXLINE + 1) r.remote.response r.remote.failed r.takes [] 0 with
    | none =>
      rw [ht] at h
      obtain ⟨rfl, rfl⟩ := Prod.mk.inj (Option.some.inj h)
      exact Or.inl ⟨rfl, rfl⟩
    | some x =>
      obtain ⟨obj, size⟩ := x
      obtain ⟨h1, h2⟩ := tunnel_spec _ _ _ _ _ _ ht
      rw [Nat.zero_add] at h1
      rw [ht] at h
      dsimp only at h
      right
      by_cases hs : size ≤ MAX_OBJECT_SIZE
      · rw [dif_pos hs] at h
        obtain ⟨rfl, rfl⟩ := Prod.mk.inj (Option.some.inj h)
        refine ⟨rfl, Or.inr ⟨_, ?_, rfl⟩⟩
        show obj.take size = r.remote.response
        rw [h2 hs, List.nil_append, h1, List.take_length]
      · rw [dif_neg hs] at h
        obtain ⟨rfl, rfl⟩ := Prod.mk.inj (Option.some.inj h)
        exact ⟨rfl, Or.inl ⟨by omega, rfl⟩⟩

/-- The path comes from the URI. -/
theorem read_request_path {r : Request} {p : Parsed} (h : read_request r = .ok p) :
    ∃ host, parse_uri p.uri.1 = some (host, p.path) := by
  unfold read_request at h
  split at h
  · cases h
  split at h
  · cases h
  split at h
  · cases h
  split at h
  · cases h
  split at h
  · cases h
  split at h
  · cases h
  · next host path huri =>
    split at h
    · cases h
    · cases h
    · split at h
      · obtain rfl := ReadResult.ok.inj h
        exact ⟨host, huri⟩
      · cases h

/-- What `doit` does: nothing to the cache, or a hit, or it relays a response. -/
theorem doit_cases {c c' : Cache} {r : Request} {reply : Reply} (h : doit c r = some (reply, c')) :
    (reply = .failed ∧ c' = c) ∨
      (∃ p i, read_request r = .ok p ∧ c.cache_find p.uri = some i ∧ reply = .hit (c.objs i).value ∧
        c' = c.setObj i { c.objs i with clk := r.getClock }) ∨
      ∃ p, read_request r = .ok p ∧
        reply = .relayed ⟨p.uri, parse_host p.host, p.path, r.remote.response⟩ ∧
        ((MAX_OBJECT_SIZE < r.remote.response.length ∧ c' = c) ∨
          ∃ obj : Value, obj.1 = r.remote.response ∧ c' = c.cache_put p.uri obj r.putClock) := by
  rw [doit] at h
  cases hr : read_request r with
  | failed =>
    rw [hr] at h
    obtain ⟨rfl, rfl⟩ := Prod.mk.inj (Option.some.inj h)
    exact Or.inl ⟨rfl, rfl⟩
  | overflow =>
    rw [hr] at h
    cases h
  | ok p =>
    rw [hr] at h
    dsimp only [Cache.cache_get] at h
    cases hf : c.cache_find p.uri with
    | some i =>
      rw [hf] at h
      obtain ⟨rfl, rfl⟩ := Prod.mk.inj (Option.some.inj h)
      exact Or.inr (Or.inl ⟨p, i, rfl, hf, rfl, rfl⟩)
    | none =>
      rw [hf] at h
      rcases relay_cases h with hfail | ⟨hreply, hc⟩
      · exact Or.inl hfail
      · exact Or.inr (Or.inr ⟨p, rfl, hreply, hc⟩)

/-! ## The invariant -/

/-- Every slot in use holds the latest stored response for its URI. -/
structure Held (w : World) : Prop where
  distinct : ∀ i j, (w.cache.objs i).valid = true → (w.cache.objs j).valid = true →
    (w.cache.objs i).key = (w.cache.objs j).key → i = j
  held : ∀ i, (w.cache.objs i).valid = true → ∃ relay,
    latestStored w.log (w.cache.objs i).key = some relay ∧ relay.response = (w.cache.objs i).value.1
  path : ∀ relay ∈ w.log, ∃ host, parse_uri relay.uri.1 = some (host, relay.path)

namespace Held

variable {w : World} {r : Request} {c' : Cache} {reply : Reply}

theorem start : Held .start where
  distinct _ _ h := by cases h
  held _ h := by cases h
  path _ h := absurd h List.not_mem_nil

/-- A hit changes the time of a slot only. -/
theorem hit (h : Held w) (i : Fin NUM_CACHE_OBJECTS) (now : ℤ) :
    Held { w with cache := w.cache.setObj i { w.cache.objs i with clk := now } } := by
  have hsame : ∀ j, ((w.cache.setObj i { w.cache.objs i with clk := now }).objs j).valid = (w.cache.objs j).valid ∧
      ((w.cache.setObj i { w.cache.objs i with clk := now }).objs j).key = (w.cache.objs j).key ∧
      ((w.cache.setObj i { w.cache.objs i with clk := now }).objs j).value = (w.cache.objs j).value := by
    intro j
    by_cases hj : j = i
    · rw [hj, Cache.setObj_same]
      exact ⟨rfl, rfl, rfl⟩
    · rw [Cache.setObj_of_ne hj]
      exact ⟨rfl, rfl, rfl⟩
  refine ⟨fun j k hj hk hkey => ?_, fun j hj => ?_, h.path⟩
  · dsimp only at hj hk hkey
    rw [(hsame j).1] at hj
    rw [(hsame k).1] at hk
    rw [(hsame j).2.1, (hsame k).2.1] at hkey
    exact h.distinct j k hj hk hkey
  · dsimp only at hj ⊢
    rw [(hsame j).1] at hj
    rw [(hsame j).2.1, (hsame j).2.2]
    exact h.held j hj

theorem add_path (h : Held w) {p : Parsed} (hr : read_request r = .ok p) (origin : Text × Text)
    (response : List UInt8) : ∀ relay ∈ (⟨p.uri, origin, p.path, response⟩ : Relay) :: w.log,
      ∃ host, parse_uri relay.uri.1 = some (host, relay.path) := by
  intro relay hmem
  rcases List.mem_cons.mp hmem with rfl | hmem
  · exact read_request_path hr
  · exact h.path relay hmem

/-- A response that is too long to be stored. -/
theorem long (h : Held w) {p : Parsed} (hr : read_request r = .ok p) (origin : Text × Text)
    {response : List UInt8} (hlong : MAX_OBJECT_SIZE < response.length) :
    Held ⟨w.cache, ⟨p.uri, origin, p.path, response⟩ :: w.log⟩ where
  distinct := h.distinct
  held i hi := by
    obtain ⟨relay, h1, h2⟩ := h.held i hi
    refine ⟨relay, ?_, h2⟩
    rw [latestStored, List.find?_cons_of_neg]
    · exact h1
    · rw [Bool.and_eq_true, decide_eq_true_iff, decide_eq_true_iff]
      exact fun hs => absurd hs.2 (Nat.not_le.mpr hlong)
  path := h.add_path hr origin response

/-- A response that is stored. -/
theorem stored (h : Held w) {p : Parsed} (hr : read_request r = .ok p) (origin : Text × Text) (obj : Value)
    (now : ℤ) : Held ⟨w.cache.cache_put p.uri obj now, ⟨p.uri, origin, p.path, obj.1⟩ :: w.log⟩ := by
  obtain ⟨i, hput, hother⟩ := Cache.cache_put_cases h.distinct p.uri obj now
  rw [hput]
  refine ⟨fun j k hj hk hkey => ?_, fun j hj => ?_, h.add_path hr origin obj.1⟩
  · dsimp only at hj hk hkey
    by_cases hji : j = i
    · by_cases hki : k = i
      · rw [hji, hki]
      · rw [Cache.setObj_of_ne hki] at hk hkey
        rw [hji, Cache.setObj_same] at hkey
        exact absurd hkey.symm (hother k hki hk)
    · rw [Cache.setObj_of_ne hji] at hj hkey
      by_cases hki : k = i
      · rw [hki, Cache.setObj_same] at hkey
        exact absurd hkey (hother j hji hj)
      · rw [Cache.setObj_of_ne hki] at hk hkey
        exact h.distinct j k hj hk hkey
  · dsimp only at hj ⊢
    by_cases hji : j = i
    · rw [hji, Cache.setObj_same]
      refine ⟨⟨p.uri, origin, p.path, obj.1⟩, ?_, rfl⟩
      rw [latestStored, List.find?_cons_of_pos]
      rw [Bool.and_eq_true, decide_eq_true_iff, decide_eq_true_iff]
      exact ⟨rfl, obj.2⟩
    · rw [Cache.setObj_of_ne hji] at hj ⊢
      obtain ⟨relay, h1, h2⟩ := h.held j hj
      refine ⟨relay, ?_, h2⟩
      rw [latestStored, List.find?_cons_of_neg]
      · exact h1
      · rw [Bool.and_eq_true, decide_eq_true_iff]
        exact fun hs => hother j hji hj hs.1.symm

theorem step (h : Held w) (hd : doit w.cache r = some (reply, c')) : Held (w.add (reply, c')) := by
  rcases doit_cases hd with ⟨rfl, rfl⟩ | ⟨p, i, -, -, rfl, rfl⟩ | ⟨p, hr, rfl, hc⟩
  · exact h
  · exact h.hit i r.getClock
  · rcases hc with ⟨hlong, rfl⟩ | ⟨obj, hobj, rfl⟩
    · exact h.long hr _ hlong
    · rw [← hobj]
      exact h.stored hr _ obj r.putClock

/-- A hit on a URI whose latest stored response came from the host that the request determines. -/
theorem transparent (h : Held w) (hd : doit w.cache r = some (reply, c'))
    (hs : (read_request r).SameHost w) : (read_request r).Transparent w reply := by
  rcases doit_cases hd with ⟨rfl, -⟩ | ⟨p, i, hr, hf, rfl, -⟩ | ⟨p, hr, rfl, -⟩
  · cases read_request r with
    | ok p => trivial
    | failed => trivial
    | overflow => trivial
  · rw [hr] at hs ⊢
    obtain ⟨hi, hkey⟩ := Cache.cache_find_some hf
    obtain ⟨relay, h1, h2⟩ := h.held i hi
    rw [hkey] at h1
    obtain ⟨hmem, huri⟩ := latestStored_mem h1
    refine ⟨relay, hmem, hs (by rw [hf]; exact Option.some_ne_none i) relay h1, ?_, h2⟩
    obtain ⟨host, h3⟩ := h.path relay hmem
    obtain ⟨host', h4⟩ := read_request_path hr
    rw [huri, h4] at h3
    exact (Prod.mk.inj (Option.some.inj h3)).2.symm
  · rw [hr]
    trivial

end Held

/-! ## Runs -/

/-- **Hits are transparent** in the runs in which a request whose URI is in the cache determines the host
from which the latest stored response for the URI came. -/
theorem hits_transparent (rs : List Request)
    (h : proxy.Along (fun w r _ _ => (read_request r).SameHost w) .start rs) :
    proxy.Along (fun w r reply _ => (read_request r).Transparent w reply) .start rs := by
  refine System.along_imp (I := Held) (L := fun _ => True) ?_ rs .start Held.start (fun _ _ => trivial) h
  intro w r reply w' hw _ he hs
  obtain ⟨⟨reply', c'⟩, hd, hx⟩ := Option.map_eq_some_iff.mp he
  obtain ⟨rfl, rfl⟩ := Prod.mk.inj hx
  exact ⟨hw.transparent hd hs, hw.step hd⟩

/-- Requests with one URI determine one host. -/
def OneHost (rs : List Request) : Prop :=
  ∀ r ∈ rs, ∀ r' ∈ rs, ∀ p p', read_request r = .ok p → read_request r' = .ok p' → p.uri = p'.uri →
    parse_host p.host = parse_host p'.host

/-- What has been relayed was for one of the requests. -/
def LogOf (rs : List Request) (w : World) : Prop :=
  ∀ relay ∈ w.log, ∃ r ∈ rs, ∃ p, read_request r = .ok p ∧ relay.uri = p.uri ∧ relay.origin = parse_host p.host

theorem LogOf.step {rs : List Request} {w : World} {r : Request} {reply : Reply} {c' : Cache} (h : LogOf rs w)
    (hr : r ∈ rs) (hd : doit w.cache r = some (reply, c')) : LogOf rs (w.add (reply, c')) := by
  rcases doit_cases hd with ⟨rfl, -⟩ | ⟨p, i, -, -, rfl, -⟩ | ⟨p, hp, rfl, -⟩
  · exact h
  · exact h
  · intro relay hmem
    rcases List.mem_cons.mp hmem with rfl | hmem
    · exact ⟨r, hr, p, hp, rfl, rfl⟩
    · exact h relay hmem

/-- In particular the condition holds of every run of requests in which one URI always determines one host. -/
theorem sameHost_of_oneHost {rs : List Request} (hone : OneHost rs)
    (hrun : proxy.Along (fun _ _ _ _ => True) .start rs) :
    proxy.Along (fun w r _ _ => (read_request r).SameHost w) .start rs := by
  refine System.along_imp (I := LogOf rs) (L := fun r => r ∈ rs) ?_ rs .start (fun _ h => absurd h List.not_mem_nil)
    (fun _ h => h) hrun
  intro w r reply w' hlog hr he _
  obtain ⟨⟨reply', c'⟩, hd, hx⟩ := Option.map_eq_some_iff.mp he
  obtain ⟨rfl, rfl⟩ := Prod.mk.inj hx
  refine ⟨?_, hlog.step hr hd⟩
  cases hp : read_request r with
  | failed => trivial
  | overflow => trivial
  | ok p =>
    intro _ relay hlatest
    obtain ⟨hmem, huri⟩ := latestStored_mem hlatest
    obtain ⟨r', hr', p', hp', huri', horigin⟩ := hlog relay hmem
    rw [horigin]
    exact hone r' hr' r hr p' p hp' hp (huri'.symm.trans huri)

/-- A request from a client that takes everything, to a host that answers with `response`. -/
def sampleRequest (text : String) (response : List UInt8) : Request :=
  ⟨⟨text.toList, false⟩, [], ⟨true, true, response, false⟩, 1, 1, 2⟩

/-- Two requests for one URI; the second one, which names the host in a header too, is a hit. -/
@[irreducible] def sampleRequests : List Request :=
  [sampleRequest "GET http://a/x HTTP/1.0\r\n\r\n" [60],
    sampleRequest "GET http://a/x HTTP/1.0\r\nHost: a:80\r\n\r\n" []]

theorem hits_transparent_sample :
    proxy.Along (fun w r reply _ => (read_request r).Transparent w reply) .start sampleRequests :=
  hits_transparent sampleRequests (by decide +kernel)

/-- The first request asks `b` for `http://a/x`; the second one, which asks `a`, gets the answer of `b`. -/
def poisonRequests : List Request :=
  [sampleRequest "GET http://a/x HTTP/1.0\r\nHost: b\r\n\r\n" [60],
    sampleRequest "GET http://a/x HTTP/1.0\r\n\r\n" []]

theorem not_transparent :
    ¬ proxy.Along (fun w r reply _ => (read_request r).Transparent w reply) .start poisonRequests := by
  decide +kernel

end Csapp.Proxy
