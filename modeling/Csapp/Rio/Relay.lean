import Csapp.Proxy.Tunnel
import Csapp.Rio.Rio

/-!
# Rio.Relay — the tunnel of the proxy on its descriptors

The loop of `doit` with the calls of `rio_readn` and `rio_writen` in it.  Its rounds are such as `Proxy.Tunnel` has
them.  Whatever the pieces in which the response arrives and is taken, the client gets a front part of it, and all of
it if nothing fails; what is stored is always a whole response (`relay_spec`).
-/

namespace Csapp.Rio

open Csapp.Lib Csapp.Lib.Arrivals Csapp.Proxy

/-- The loop of `doit`: what `cache_put` is called with, and what the client has got. -/
def relayLoop : ℕ → List (Arrival UInt8) → Writer UInt8 → List UInt8 → List UInt8 → ℕ →
    Option (Option (List UInt8 × ℕ) × Writer UInt8)
  | 0, _, _, _, _, _ => none
  | fuel + 1, remote_fd, fd, buf, obj, obj_size =>
    (rio_readn remote_fd buf MAXLINE).bind fun
      | ((n, buf), remote_fd) =>
        if n < 0 then some (none, fd)
        else (rio_writen fd buf n.toNat).bind fun
          | (rc, fd) =>
            if rc ≠ n then some (none, fd)
            else
              (if obj_size + n.toNat ≤ MAX_OBJECT_SIZE then writeAt obj obj_size (buf.take n.toNat)
                else some obj).bind fun obj =>
                let obj_size := obj_size + n.toNat
                if n = MAXLINE then relayLoop fuel remote_fd fd buf obj obj_size
                else some (if obj_size ≤ MAX_OBJECT_SIZE then some (obj, obj_size) else none, fd)

/-- The tunnel; `buf` and `obj` are not initialised. -/
def relay (remote_fd : List (Arrival UInt8)) (fd : Writer UInt8) (buf : List UInt8) (obj : Obj) :
    Option (Option (List UInt8 × ℕ) × Writer UInt8) :=
  relayLoop ((items remote_fd).length + 1) remote_fd fd buf obj.1 0

/-- A read of `n` items fails, gives so many, or ends with the file. -/
theorem readn_cases {α : Type} (usrbuf : List α) (n : ℕ) (is : List (Item α)) :
    ∃ s rest,
      ((front is).2 = .fail ∧ readn usrbuf n is = ((-1, s ++ usrbuf.drop s.length), rest)) ∨
      (s.length ≤ n ∧ readn usrbuf n is = (((s.length : ℤ), s ++ usrbuf.drop s.length), rest) ∧
        (s.length = n ∧ is = s.map .val ++ rest ∨ s.length < n ∧ front is = (s, .eof))) := by
  have hsplit : Split is (scanAll n is) := scan_split _ n is
  have hlt : (scanAll n is).2.1 ≠ .full → (scanAll n is).1.length < n := length_scan_lt
  have hlen : (scanAll n is).2.1 = .full → (scanAll n is).1.length = n := length_scanAll
  unfold readn
  generalize scanAll n is = x at hsplit hlt hlen
  obtain ⟨s, e, rest⟩ := x
  refine ⟨s, rest, ?_⟩
  cases e with
  | fail => exact Or.inl ⟨congrArg Prod.snd (hsplit.front_eq (show Ending.fail ≠ .full by decide)), rfl⟩
  | full => exact Or.inr ⟨Nat.le_of_eq (hlen rfl), rfl, Or.inl ⟨hlen rfl, hsplit⟩⟩
  | eof =>
    have hs := hlt (show Ending.eof ≠ .full by decide)
    exact Or.inr ⟨Nat.le_of_lt hs, rfl, Or.inr ⟨hs, hsplit.front_eq (show Ending.eof ≠ .full by decide)⟩⟩

section Relay

variable {is : List (Item UInt8)} {remote_fd : List (Arrival UInt8)} {fd fd' : Writer UInt8}
  {buf obj sent t : List UInt8} {obj_size fuel : ℕ} {put : Option (List UInt8 × ℕ)}

/-- What the client gets of the items, and what is stored, behind what has been sent already. -/
structure Relayed (sent : List UInt8) (is : List (Item UInt8)) (fd fd' : Writer UInt8)
    (put : Option (List UInt8 × ℕ)) (t : List UInt8) : Prop where
  after : fd.After t fd'
  part : t <+: (front is).1
  stored : ∀ o size, put = some (o, size) →
    t = (front is).1 ∧ (front is).2 = .eof ∧ size = (sent ++ t).length ∧ o.take size = sent ++ t
  whole : fd.Willing → (front is).2 = .eof →
    t = (front is).1 ∧ (put.isSome ↔ (sent ++ t).length ≤ MAX_OBJECT_SIZE)

/-- A round in which the response fails. -/
theorem Relayed.failed (hfront : (front is).2 = .fail) (sent : List UInt8) (fd : Writer UInt8) :
    Relayed sent is fd fd none [] :=
  ⟨.refl fd, List.nil_prefix, nofun, fun _ h => by rw [hfront] at h; cases h⟩

/-- A round in which the client does not take all. -/
theorem Relayed.broken (hafter : fd.After t fd') (ht : t <+: (front is).1) (hwilling : ¬ fd.Willing)
    (sent : List UInt8) : Relayed sent is fd fd' none t :=
  ⟨hafter, ht, nofun, fun h => absurd h hwilling⟩

/-- The last round, with the array as the tunnel leaves it. -/
theorem Relayed.last {s : List UInt8} (hfront : front is = (s, .eof)) (hafter : fd.After s fd')
    (h : Capturing obj obj_size (sent ++ s)) :
    Relayed sent is fd fd' (if obj_size ≤ MAX_OBJECT_SIZE then some (obj, obj_size) else none) s where
  after := hafter
  part := ⟨[], (List.append_nil s).trans (congrArg Prod.fst hfront).symm⟩
  stored o size hput := by
    obtain ⟨hfit, hput⟩ := Option.ite_none_right_eq_some.mp hput
    obtain ⟨rfl, rfl⟩ := Prod.mk.inj (Option.some.inj hput)
    rw [hfront]
    exact ⟨rfl, rfl, h.size, h.bytes hfit⟩
  whole _ _ := by
    rw [hfront, ← h.size]
    refine ⟨rfl, ?_⟩
    by_cases hfit : obj_size ≤ MAX_OBJECT_SIZE
    · rw [if_pos hfit]
      exact iff_of_true rfl hfit
    · rw [if_neg hfit]
      exact iff_of_false Bool.false_ne_true hfit

/-- A full round, and what follows it. -/
theorem Relayed.full {s : List UInt8} {rest : List (Item UInt8)} {fd'' : Writer UInt8} (his : is = s.map .val ++ rest)
    (hafter : fd.After s fd') (h : Relayed (sent ++ s) rest fd' fd'' put t) :
    Relayed sent is fd fd'' put (s ++ t) := by
  have hfront : front is = (s ++ (front rest).1, (front rest).2) := by rw [his, front_append]
  refine ⟨hafter.trans h.after, ?_, fun o size hput => ?_, fun hwilling heof => ?_⟩
  · rw [hfront]
    exact (List.prefix_append_right_inj s).mpr h.part
  · obtain ⟨h1, h2, h3, h4⟩ := h.stored o size hput
    rw [hfront, ← List.append_assoc, ← h1]
    exact ⟨rfl, h2, h3, h4⟩
  · rw [hfront] at heof ⊢
    obtain ⟨h1, h2⟩ := h.whole (hafter.willing hwilling) heof
    rw [← List.append_assoc, ← h1]
    exact ⟨rfl, h2⟩

theorem relayLoop_spec (fd : Writer UInt8) (h : Capturing obj obj_size sent) (hbuf : buf.length = MAXLINE)
    (hfuel : (items remote_fd).length < fuel) :
    ∃ rounds put fd' t, relayLoop fuel remote_fd fd buf obj obj_size = some (put, fd') ∧
      tunnelRounds rounds obj obj_size sent = some ⟨sent ++ t, put⟩ ∧
      Relayed sent (items remote_fd) fd fd' put t := by
  induction fuel generalizing remote_fd fd buf obj obj_size sent with
  | zero => omega
  | succ fuel ih =>
    obtain ⟨remote_fd', hread, hitems⟩ := rio_readn_spec remote_fd (Nat.le_of_eq hbuf.symm)
    unfold relayLoop
    rw [hread, Option.bind_some]
    obtain ⟨s, rest, ⟨hfront, hreadn⟩ | ⟨hle, hreadn, hround⟩⟩ := readn_cases buf MAXLINE (items remote_fd)
    · rw [hreadn]
      refine ⟨[⟨none, 0⟩], none, fd, [], rfl, ?_, .failed hfront sent fd⟩
      rw [List.append_nil]
      rfl
    · rw [hreadn] at hitems ⊢
      generalize hbuf' : s ++ buf.drop s.length = buf'
      have htake : buf'.take s.length = s := by rw [← hbuf', List.take_left]
      have hlen' : buf'.length = MAXLINE := by
        rw [← hbuf', List.length_append, List.length_drop]
        omega
      have hpart : s <+: (front (items remote_fd)).1 := by
        rcases hround with ⟨-, his⟩ | ⟨-, hfront⟩
        · rw [his, front_append]
          exact List.prefix_append s _
        · exact ⟨[], (List.append_nil s).trans (congrArg Prod.fst hfront).symm⟩
      dsimp only
      rw [if_neg (by omega), Int.toNat_natCast]
      obtain ⟨fd', u, hafter, hwritten⟩ := rio_writen_spec fd (show s.length ≤ buf'.length by omega)
      rw [htake] at hwritten
      rcases hwritten with ⟨hwrite, hu⟩ | ⟨hwrite, hu, hne, hwilling⟩
      · rw [hu] at hafter
        obtain ⟨obj', hcopy, hcapturing⟩ := h.copy s
        obtain ⟨r, hr⟩ : ∃ r, ∀ rounds, tunnelRounds (r :: rounds) obj obj_size sent =
            if s.length = MAXLINE then tunnelRounds rounds obj' (obj_size + s.length) (sent ++ s)
            else some ⟨sent ++ s, if obj_size + s.length ≤ MAX_OBJECT_SIZE
              then some (obj', obj_size + s.length) else none⟩ := by
          refine ⟨⟨some ⟨s, hle⟩, s.length⟩, fun rounds => ?_⟩
          rw [tunnelRounds]
          dsimp only
          rw [if_neg (Nat.lt_irrefl _), hcopy, List.take_length]
        rw [hwrite, Option.bind_some]
        dsimp only
        rw [if_neg (not_not.mpr rfl), htake, hcopy, Option.bind_some]
        rcases hround with ⟨hfull, his⟩ | ⟨hlt, hfront⟩
        · have hless : (items remote_fd').length < fuel := by
            have hcount := congrArg List.length his
            rw [List.length_append, List.length_map, hfull] at hcount
            have hpos : 0 < MAXLINE := by decide
            have hrest := congrArg List.length hitems
            dsimp only at hrest
            omega
          obtain ⟨rounds, put, fd'', t, hloop, htunnel, hrelayed⟩ := ih fd' hcapturing hlen' hless
          rw [hitems] at hrelayed
          refine ⟨r :: rounds, put, fd'', s ++ t, (if_pos (congrArg Nat.cast hfull)).trans hloop, ?_,
            .full his hafter hrelayed⟩
          rw [hr, if_pos hfull, htunnel, List.append_assoc]
        · refine ⟨[r], _, fd', s, if_neg (by omega), ?_, .last hfront hafter hcapturing⟩
          rw [hr, if_neg (Nat.ne_of_lt hlt)]
      · have hlt : u.length < s.length := Nat.lt_of_le_of_ne hu.length_le fun h => hne (hu.eq_of_length h)
        rw [hwrite, Option.bind_some]
        refine ⟨[⟨some ⟨s, hle⟩, u.length⟩], none, fd', u, if_pos (by omega), ?_,
          .broken hafter (hu.trans hpart) hwilling sent⟩
        rw [tunnelRounds]
        dsimp only
        rw [if_pos hlt, ← List.prefix_iff_eq_take.mp hu]

/-- **The tunnel** on its descriptors: the client gets a front part of the response, and all of it if no call fails;
what is stored is a whole response, and then it is stored unless it is too long. -/
theorem relay_spec (remote_fd : List (Arrival UInt8)) (fd : Writer UInt8) (hbuf : buf.length = MAXLINE) (obj : Obj) :
    ∃ rounds put fd' t, relay remote_fd fd buf obj = some (put, fd') ∧
      tunnelRounds rounds obj.1 0 [] = some ⟨t, put⟩ ∧ Relayed [] (items remote_fd) fd fd' put t :=
  relayLoop_spec fd obj.capturing hbuf (Nat.lt_succ_self _)

end Relay

def clearedObj : Obj := ⟨List.replicate MAX_OBJECT_SIZE 0, List.length_replicate⟩

theorem relay_sample : ∃ put fd', relay [.chunk 1 [2], .intr, .chunk 3 []] ⟨[.took 1, .intr], false, []⟩
    (List.replicate MAXLINE 0) clearedObj = some (put, fd') ∧ fd'.sent = [1, 2, 3] ∧ put.isSome = true := by
  have hwilling : Writer.Willing (⟨[.took 1, .intr], false, []⟩ : Writer UInt8) := by
    intro x hx
    rcases List.mem_pair.mp hx with rfl | rfl
    · exact ⟨by decide, by decide⟩
    · exact ⟨by decide, by decide⟩
  have hlen : (List.replicate MAXLINE (0 : UInt8)).length = MAXLINE := List.length_replicate
  obtain ⟨rounds, put, fd', t, hrun, -, hrelayed⟩ := relay_spec [.chunk 1 [2], .intr, .chunk 3 []]
    ⟨[.took 1, .intr], false, []⟩ hlen clearedObj
  obtain ⟨ht, hput⟩ := hrelayed.whole hwilling rfl
  refine ⟨put, fd', hrun, hrelayed.after.sent.trans ht, hput.mpr ?_⟩
  rw [ht]
  exact (show 3 ≤ MAX_OBJECT_SIZE by decide)

end Csapp.Rio
