import Csapp.Lib.Arrivals
import Csapp.Lib.Buffer
import Csapp.Lib.Text

/-!
# Rio.Rio — the robust I/O functions of `csapp.c`

`read` and `write` may transfer less than they are asked for and may be interrupted.  The functions call them again:
`rio_readn` and `rio_writen` on the descriptor, `rio_readnb` and `rio_readlineb` on a buffer that `rio_read` fills.
Each of the reading functions returns and leaves in its array what the items of the input say (`readn`, `readline`),
in whatever pieces the input arrives.
-/

namespace Csapp.Rio

open Csapp.Lib Csapp.Lib.Arrivals

variable {α : Type}

/-! ## csapp.c -/

def RIO_BUFSIZE : ℕ := 8192

/-- `rio_t`; for `rio_fd` stands what the descriptor has still to give. -/
structure RioT (α : Type) where
  rio_fd : List (Arrival α)
  rio_cnt : ℤ
  rio_bufptr : ℕ
  rio_buf : List α

/-- The array keeps what is in it. -/
def rio_readinitb (rp : RioT α) (fd : List (Arrival α)) : RioT α :=
  { rp with rio_fd := fd, rio_cnt := 0, rio_bufptr := 0 }

/-- The loop of `rio_read`. -/
def refill : ℕ → RioT α → Option (Ending × RioT α)
  | 0, _ => none
  | fuel + 1, rp =>
    if rp.rio_cnt ≤ 0 then
      match Arrivals.read rp.rio_fd RIO_BUFSIZE with
      | (.intr, fd) => refill fuel { rp with rio_fd := fd, rio_cnt := -1 }
      | (.fail, fd) => some (.fail, { rp with rio_fd := fd, rio_cnt := -1 })
      | (.got [], fd) => some (.eof, { rp with rio_fd := fd, rio_cnt := 0 })
      | (.got (c :: s), fd) =>
        (writeAt rp.rio_buf 0 (c :: s)).bind fun buf => refill fuel ⟨fd, (c :: s).length, 0, buf⟩
    else some (.full, rp)

/-- The bytes that are copied to the caller, or -1. -/
def rio_read (rp : RioT α) (n : ℕ) : Option (Option (List α) × RioT α) :=
  (refill (rp.rio_fd.length + 2) rp).bind fun
    | (.fail, rp) => some (none, rp)
    | (.eof, rp) => some (some [], rp)
    | (.full, rp) =>
      let cnt := if rp.rio_cnt < n then rp.rio_cnt.toNat else n
      if rp.rio_bufptr + cnt ≤ rp.rio_buf.length then
        some (some ((rp.rio_buf.drop rp.rio_bufptr).take cnt),
          { rp with rio_bufptr := rp.rio_bufptr + cnt, rio_cnt := rp.rio_cnt - cnt })
      else none

/-- `nleft`, or -1. -/
def readnbLoop : ℕ → RioT α → List α → ℕ → ℕ → Option ((Option ℕ × List α) × RioT α)
  | 0, _, _, _, _ => none
  | fuel + 1, rp, usrbuf, bufp, nleft =>
    if 0 < nleft then
      (rio_read rp nleft).bind fun
        | (none, rp) => some ((none, usrbuf), rp)
        | (some [], rp) => some ((some nleft, usrbuf), rp)
        | (some (c :: s), rp) => (writeAt usrbuf bufp (c :: s)).bind fun usrbuf =>
          readnbLoop fuel rp usrbuf (bufp + (c :: s).length) (nleft - (c :: s).length)
    else some ((some nleft, usrbuf), rp)

def returned (n : ℕ) : Option ℕ → ℤ
  | none => -1
  | some nleft => n - nleft

def rio_readnb (rp : RioT α) (usrbuf : List α) (n : ℕ) : Option ((ℤ × List α) × RioT α) :=
  (readnbLoop (n + 1) rp usrbuf 0 n).map fun (out, rp) => ((returned n out.1, out.2), rp)

def readnLoop : ℕ → List (Arrival α) → List α → ℕ → ℕ → Option ((Option ℕ × List α) × List (Arrival α))
  | 0, _, _, _, _ => none
  | fuel + 1, fd, usrbuf, bufp, nleft =>
    if 0 < nleft then
      match Arrivals.read fd nleft with
      | (.intr, fd) => readnLoop fuel fd usrbuf bufp nleft
      | (.fail, fd) => some ((none, usrbuf), fd)
      | (.got [], fd) => some ((some nleft, usrbuf), fd)
      | (.got (c :: s), fd) => (writeAt usrbuf bufp (c :: s)).bind fun usrbuf =>
        readnLoop fuel fd usrbuf (bufp + (c :: s).length) (nleft - (c :: s).length)
    else some ((some nleft, usrbuf), fd)

def rio_readn (fd : List (Arrival α)) (usrbuf : List α) (n : ℕ) :
    Option ((ℤ × List α) × List (Arrival α)) :=
  (readnLoop (fd.length + n + 1) fd usrbuf 0 n).map fun (out, fd) => ((returned n out.1, out.2), fd)

/-- `*bufp = 0; return n-1;` -/
def endLine (rp : RioT Char) (usrbuf : Text) (bufp n : ℕ) : Option ((ℤ × Text) × RioT Char) :=
  (writeAt usrbuf bufp ['\x00']).map fun usrbuf => ((n - 1, usrbuf), rp)

def INT_MAX : ℕ := 2 ^ 31 - 1

/-- There is no result where the `int` `n` overflows. -/
def readlinebLoop : ℕ → RioT Char → Text → ℕ → ℕ → ℕ → Option ((ℤ × Text) × RioT Char)
  | 0, _, _, _, _, _ => none
  | fuel + 1, rp, usrbuf, bufp, n, maxlen =>
    if n < maxlen then
      (rio_read rp 1).bind fun
        | (some [c], rp) => (writeAt usrbuf bufp [c]).bind fun usrbuf =>
          if n = INT_MAX then none
          else if c = '\n' then endLine rp usrbuf (bufp + 1) (n + 1)
          else readlinebLoop fuel rp usrbuf (bufp + 1) (n + 1) maxlen
        | (some [], rp) => if n = 1 then some ((0, usrbuf), rp) else endLine rp usrbuf bufp n
        | (_, rp) => some ((-1, usrbuf), rp)
    else endLine rp usrbuf bufp n

theorem readlinebLoop_succ (fuel : ℕ) (rp : RioT Char) (usrbuf : Text) (bufp n maxlen : ℕ) :
    readlinebLoop (fuel + 1) rp usrbuf bufp n maxlen =
      if n < maxlen then
        (rio_read rp 1).bind fun
          | (some [c], rp) => (writeAt usrbuf bufp [c]).bind fun usrbuf =>
            if n = INT_MAX then none
            else if c = '\n' then endLine rp usrbuf (bufp + 1) (n + 1)
            else readlinebLoop fuel rp usrbuf (bufp + 1) (n + 1) maxlen
          | (some [], rp) => if n = 1 then some ((0, usrbuf), rp) else endLine rp usrbuf bufp n
          | (_, rp) => some ((-1, usrbuf), rp)
      else endLine rp usrbuf bufp n :=
  rfl

def rio_readlineb (rp : RioT Char) (usrbuf : Text) (maxlen : ℕ) : Option ((ℤ × Text) × RioT Char) :=
  readlinebLoop (maxlen + 1) rp usrbuf 0 1 maxlen

/-- What a call of `write` meets: it is interrupted, fails, or takes at most `k` bytes. -/
inductive Sending
  | intr
  | fail
  | took (k : ℕ)
  deriving DecidableEq

/-- A descriptor that is written: what the calls meet, whether `errno` is `EINTR`, and what has gone out.  Behind the
list everything is taken. -/
structure Writer (α : Type) where
  fd : List Sending
  eintr : Bool
  sent : List α

/-- `write`, which leaves `errno` alone unless it fails. -/
def Writer.write (w : Writer α) (s : List α) : ℤ × Writer α :=
  match w.fd with
  | [] => (s.length, { w with sent := w.sent ++ s })
  | .intr :: fd => (-1, { w with fd, eintr := true })
  | .fail :: fd => (-1, { w with fd, eintr := false })
  | .took k :: fd => ((s.take k).length, { w with fd, sent := w.sent ++ s.take k })

/-- The loop, with what is left of the array; whether it ends without a failure. -/
def writenLoop : ℕ → Writer α → List α → Option (Bool × Writer α)
  | 0, _, _ => none
  | fuel + 1, w, s =>
    if 0 < s.length then
      match w.write s with
      | (nwritten, w) =>
        if nwritten ≤ 0 then
          if w.eintr then writenLoop fuel w s else some (false, w)
        else writenLoop fuel w (s.drop nwritten.toNat)
    else some (true, w)

def rio_writen (w : Writer α) (usrbuf : List α) (n : ℕ) : Option (ℤ × Writer α) :=
  if n ≤ usrbuf.length then
    (writenLoop (w.fd.length + 2) w (usrbuf.take n)).map fun (ok, w) => (if ok then n else -1, w)
  else none

/-! ## What the calls do to the items -/

/-- What `n` bytes are read of the items: the result and the array, and the items behind. -/
def readn (usrbuf : List α) (n : ℕ) (is : List (Item α)) : (ℤ × List α) × List (Item α) :=
  let x := scanAll n is
  ((if x.2.1 = .fail then -1 else x.1.length, x.1 ++ usrbuf.drop x.1.length), x.2.2)

/-- A line of the items, of at most `maxlen - 1` bytes. -/
def readline (usrbuf : Text) (maxlen : ℕ) (is : List (Item Char)) : (ℤ × Text) × List (Item Char) :=
  let x := scan (· = '\n') (maxlen - 1) is
  if x.2.1 = .fail then ((-1, x.1 ++ usrbuf.drop x.1.length), x.2.2)
  else if x.2.1 = .eof ∧ x.1 = [] then ((0, usrbuf), x.2.2)
  else ((x.1.length, x.1 ++ '\x00' :: usrbuf.drop (x.1.length + 1)), x.2.2)

namespace RioT

structure Ok (rp : RioT α) : Prop where
  length : rp.rio_buf.length = RIO_BUFSIZE
  within : rp.rio_bufptr + rp.rio_cnt.toNat ≤ RIO_BUFSIZE

/-- A `rio_t` as it may be found. -/
def cleared (a : α) : RioT α := ⟨[], 0, 0, List.replicate RIO_BUFSIZE a⟩

theorem cleared_ok (a : α) : (cleared a).Ok := ⟨List.length_replicate, Nat.zero_le _⟩

/-- What is in the buffer. -/
def unread (rp : RioT α) : List α := (rp.rio_buf.drop rp.rio_bufptr).take rp.rio_cnt.toNat

/-- What is still to be read, in the buffer and behind it. -/
def items (rp : RioT α) : List (Item α) := rp.unread.map .val ++ Arrivals.items rp.rio_fd

variable {rp : RioT α}

theorem items_of_empty (h : rp.rio_cnt ≤ 0) : rp.items = Arrivals.items rp.rio_fd := by
  unfold items unread
  rw [Int.toNat_of_nonpos h, List.take_zero, List.map_nil, List.nil_append]

theorem Ok.readinitb (h : rp.Ok) (fd : List (Arrival α)) : (rio_readinitb rp fd).Ok :=
  ⟨h.length, Nat.zero_le _⟩

theorem items_readinitb (rp : RioT α) (fd : List (Arrival α)) : (rio_readinitb rp fd).items = Arrivals.items fd :=
  items_of_empty (Int.le_refl 0)

theorem Ok.emptied (h : rp.Ok) (fd : List (Arrival α)) {cnt : ℤ} (hcnt : cnt ≤ 0) :
    ({ rp with rio_fd := fd, rio_cnt := cnt } : RioT α).Ok := by
  refine ⟨h.length, ?_⟩
  rw [Int.toNat_of_nonpos hcnt]
  exact Nat.le_trans (Nat.le_add_right _ _) h.within

theorem items_emptied (rp : RioT α) (fd : List (Arrival α)) {cnt : ℤ} (hcnt : cnt ≤ 0) :
    ({ rp with rio_fd := fd, rio_cnt := cnt } : RioT α).items = Arrivals.items fd := items_of_empty hcnt

/-- What has been read is in front of the array. -/
theorem Ok.filled (h : rp.Ok) {s : List α} (hs : s.length ≤ RIO_BUFSIZE) (fd : List (Arrival α)) :
    ∃ buf, writeAt rp.rio_buf 0 s = some buf ∧ (⟨fd, s.length, 0, buf⟩ : RioT α).Ok ∧
      (⟨fd, s.length, 0, buf⟩ : RioT α).items = s.map .val ++ Arrivals.items fd := by
  have hlen := h.length
  have hwrite : writeAt rp.rio_buf 0 s = some ([] ++ (s ++ rp.rio_buf.drop s.length)) :=
    writeAt_append [] (hlen.symm ▸ hs)
  refine ⟨_, hwrite, ⟨?_, ?_⟩, ?_⟩
  · rw [length_writeAt hwrite]
    exact hlen
  · exact Nat.le_trans (Nat.le_of_eq (Nat.zero_add _)) hs
  · show (List.take s.length (s ++ rp.rio_buf.drop s.length)).map Item.val ++ _ = _
    rw [List.take_left]

/-- The next `k` bytes of the buffer are what is to be read first. -/
theorem items_advance (rp : RioT α) {k : ℕ} (hk : k ≤ rp.rio_cnt.toNat) :
    rp.items = ((rp.rio_buf.drop rp.rio_bufptr).take k).map .val ++
      ({ rp with rio_bufptr := rp.rio_bufptr + k, rio_cnt := rp.rio_cnt - k } : RioT α).items := by
  have hcnt : rp.rio_cnt.toNat = k + (rp.rio_cnt - k).toNat := by omega
  unfold items unread
  rw [hcnt, List.take_add, List.map_append, List.append_assoc, List.drop_drop]

end RioT

variable {rp : RioT α} {n fuel : ℕ}

/-- What the loop of `rio_read` leaves. -/
def Refilled (n : ℕ) (rp : RioT α) (e : Ending) (rp' : RioT α) : Prop :=
  rp'.Ok ∧
    match e with
    | .full => 0 < rp'.rio_cnt ∧ rp'.items = rp.items
    | .eof => Took n rp.items (some []) rp'.items
    | .fail => Took n rp.items none rp'.items

theorem refill_spec (n : ℕ) (h : rp.Ok) (hfuel : rp.rio_fd.length + 2 ≤ fuel) :
    ∃ e rp', refill fuel rp = some (e, rp') ∧ Refilled n rp e rp' := by
  induction fuel generalizing rp with
  | zero => omega
  | succ fuel ih =>
    unfold refill
    by_cases hcnt : rp.rio_cnt ≤ 0
    · rw [if_pos hcnt]
      unfold Refilled
      rw [RioT.items_of_empty hcnt]
      rcases read_took rp.rio_fd (show 0 < RIO_BUFSIZE by decide) with
        ⟨fd, hread, hitems, hlen⟩ | ⟨fd, hread, htook⟩ | ⟨s, fd, hread, htook, hlen⟩
      · rw [hread, hitems, ← RioT.items_emptied rp fd (show (-1 : ℤ) ≤ 0 by decide)]
        exact ih (h.emptied fd (by decide)) (by dsimp only; omega)
      · rw [hread]
        refine ⟨.fail, _, rfl, h.emptied fd (by decide), ?_⟩
        rw [RioT.items_emptied rp fd (by decide)]
        exact htook.fail_of n
      · rw [hread]
        cases s with
        | nil =>
          refine ⟨.eof, _, rfl, h.emptied fd (Int.le_refl 0), ?_⟩
          rw [RioT.items_emptied rp fd (Int.le_refl 0)]
          exact htook.eof_of n
        | cons c s =>
          obtain ⟨hle, hitems, -⟩ := htook.scan_got (List.cons_ne_nil c s)
          obtain ⟨buf, hwrite, hok, hbuf⟩ := h.filled hle fd
          obtain ⟨fuel, rfl⟩ : ∃ k, fuel = k + 1 := ⟨fuel - 1, by omega⟩
          have hpos : ¬ ((c :: s).length : ℤ) ≤ 0 := by
            rw [List.length_cons]
            omega
          dsimp only
          rw [hwrite, Option.bind_some, refill, if_neg hpos]
          exact ⟨.full, _, rfl, hok, Int.lt_of_not_ge hpos, hbuf.trans hitems.symm⟩
    · rw [if_neg hcnt]
      exact ⟨.full, rp, rfl, h, Int.lt_of_not_ge hcnt, rfl⟩

/-- `rio_read` takes a piece of what is still to be read. -/
theorem rio_read_spec (h : rp.Ok) (hn : 0 < n) :
    ∃ r rp', rio_read rp n = some (r, rp') ∧ rp'.Ok ∧ Took n rp.items r rp'.items := by
  obtain ⟨e, rp', hrefill, hok, hdone⟩ := refill_spec n h (Nat.le_refl _)
  unfold rio_read
  rw [hrefill, Option.bind_some]
  cases e with
  | fail => exact ⟨none, rp', rfl, hok, hdone⟩
  | eof => exact ⟨some [], rp', rfl, hok, hdone⟩
  | full =>
    obtain ⟨hpos, hitems⟩ := hdone
    have hlen := hok.length
    have hwithin := hok.within
    dsimp only
    obtain ⟨cnt, hcnt, hle, hcnt0, hcntn⟩ : ∃ cnt, (if rp'.rio_cnt < n then rp'.rio_cnt.toNat else n) = cnt ∧
        cnt ≤ rp'.rio_cnt.toNat ∧ 0 < cnt ∧ cnt ≤ n := by
      split
      · exact ⟨_, rfl, Nat.le_refl _, by omega, by omega⟩
      · exact ⟨_, rfl, by omega, hn, Nat.le_refl _⟩
    rw [hcnt, if_pos (by omega)]
    refine ⟨_, _, rfl, ⟨hlen, by dsimp only; omega⟩, ?_⟩
    rw [← hitems, rp'.items_advance hle]
    have htaken : ((rp'.rio_buf.drop rp'.rio_bufptr).take cnt).length = cnt := by
      rw [List.length_take, List.length_drop]
      omega
    exact .got (List.ne_nil_of_length_pos (by omega)) (by omega)

/-! ## Reading a number of bytes -/

/-- What the loops leave that read `nleft` bytes to `rest`, behind what is in the array already. -/
def filled (done rest : List α) (nleft : ℕ) (is : List (Item α)) : Option ℕ × List α :=
  let x := scanAll nleft is
  (if x.2.1 = .fail then none else some (nleft - x.1.length), done ++ (x.1 ++ rest.drop x.1.length))

variable {done rest s : List α} {nleft : ℕ} {is is' : List (Item α)}

theorem filled_fail (h : Took nleft is none is') (hn : 0 < nleft) :
    filled done rest nleft is = (none, done ++ rest) := by
  unfold filled
  rw [h.scan_fail hn]
  rfl

theorem filled_eof (h : Took nleft is (some []) is') (hn : 0 < nleft) :
    filled done rest nleft is = (some nleft, done ++ rest) := by
  unfold filled
  rw [h.scan_eof hn]
  rfl

theorem filled_got (h : Took nleft is (some s) is') (hs : s ≠ []) :
    filled done rest nleft is = filled (done ++ s) (rest.drop s.length) (nleft - s.length) is' := by
  unfold filled
  rw [(h.scan_got hs).2.2]
  dsimp only
  rw [List.length_append, Nat.sub_add_eq, List.drop_drop, List.append_assoc, List.append_assoc]

theorem readnbLoop_spec (done : List α) (h : rp.Ok) (hfit : nleft ≤ rest.length) (hfuel : nleft < fuel) :
    ∃ rp', readnbLoop fuel rp (done ++ rest) done.length nleft = some (filled done rest nleft rp.items, rp') ∧
      rp'.Ok ∧ rp'.items = (scanAll nleft rp.items).2.2 := by
  induction fuel generalizing rp done rest nleft with
  | zero => omega
  | succ fuel ih =>
    unfold readnbLoop
    by_cases hn : 0 < nleft
    · obtain ⟨r, rp', hread, hok, htook⟩ := rio_read_spec h hn
      rw [if_pos hn, hread, Option.bind_some]
      match r with
      | none =>
        rw [filled_fail htook hn, htook.scan_fail hn]
        exact ⟨rp', rfl, hok, rfl⟩
      | some [] =>
        rw [filled_eof htook hn, htook.scan_eof hn]
        exact ⟨rp', rfl, hok, rfl⟩
      | some (c :: s) =>
        have hne := List.cons_ne_nil c s
        obtain ⟨hle, -, hscan⟩ := htook.scan_got hne
        dsimp only
        rw [writeAt_append done (Nat.le_trans hle hfit), Option.bind_some, filled_got htook hne, hscan,
          ← List.append_assoc, ← List.length_append]
        refine ih (done ++ c :: s) hok ?_ ?_
        · rw [List.length_drop]
          omega
        · rw [List.length_cons] at hle ⊢
          omega
    · obtain rfl : nleft = 0 := by omega
      rw [if_neg hn]
      exact ⟨rp, rfl, h, rfl⟩

theorem readnLoop_spec (done : List α) {fd : List (Arrival α)} (hfit : nleft ≤ rest.length)
    (hfuel : fd.length + nleft < fuel) :
    ∃ fd', readnLoop fuel fd (done ++ rest) done.length nleft =
        some (filled done rest nleft (items fd), fd') ∧
      items fd' = (scanAll nleft (items fd)).2.2 := by
  induction fuel generalizing fd done rest nleft with
  | zero => omega
  | succ fuel ih =>
    unfold readnLoop
    by_cases hn : 0 < nleft
    · rw [if_pos hn]
      rcases read_took fd hn with ⟨fd', hread, hitems, hlen⟩ | ⟨fd', hread, htook⟩ | ⟨s, fd', hread, htook, hlen⟩
      · rw [hread, hitems]
        exact ih done hfit (by omega)
      · rw [hread, filled_fail htook hn, htook.scan_fail hn]
        exact ⟨fd', rfl, rfl⟩
      · rw [hread]
        cases s with
        | nil =>
          rw [filled_eof htook hn, htook.scan_eof hn]
          exact ⟨fd', rfl, rfl⟩
        | cons c s =>
          have hne := List.cons_ne_nil c s
          obtain ⟨hle, -, hscan⟩ := htook.scan_got hne
          dsimp only
          rw [writeAt_append done (Nat.le_trans hle hfit), Option.bind_some, filled_got htook hne, hscan,
            ← List.append_assoc, ← List.length_append]
          refine ih (done ++ c :: s) ?_ ?_
          · rw [List.length_drop]
            omega
          · rw [List.length_cons] at hle ⊢
            omega
    · obtain rfl : nleft = 0 := by omega
      rw [if_neg hn]
      exact ⟨fd, rfl, rfl⟩

theorem returned_filled (usrbuf : List α) (n : ℕ) (is : List (Item α)) :
    (returned n (filled [] usrbuf n is).1, (filled [] usrbuf n is).2) = (readn usrbuf n is).1 := by
  have hle := length_scan_le (fun _ => false) n is
  unfold filled readn
  dsimp only
  split
  · rfl
  · unfold returned
    rw [List.nil_append]
    refine Prod.ext ?_ rfl
    unfold scanAll
    dsimp only
    omega

theorem rio_readnb_spec {usrbuf : List α} (h : rp.Ok) (hfit : n ≤ usrbuf.length) :
    ∃ rp', rio_readnb rp usrbuf n = some ((readn usrbuf n rp.items).1, rp') ∧ rp'.Ok ∧
      rp'.items = (readn usrbuf n rp.items).2 := by
  obtain ⟨rp', hloop, hok, hitems⟩ := readnbLoop_spec [] h hfit (Nat.lt_succ_self n)
  refine ⟨rp', ?_, hok, hitems⟩
  unfold rio_readnb
  rw [← returned_filled]
  exact congrArg (Option.map _) hloop

theorem rio_readn_spec {usrbuf : List α} (fd : List (Arrival α)) (hfit : n ≤ usrbuf.length) :
    ∃ fd', rio_readn fd usrbuf n = some ((readn usrbuf n (items fd)).1, fd') ∧
      items fd' = (readn usrbuf n (items fd)).2 := by
  obtain ⟨fd', hloop, hitems⟩ := readnLoop_spec [] hfit (Nat.lt_succ_self (fd.length + n))
  refine ⟨fd', ?_, hitems⟩
  unfold rio_readn
  rw [← returned_filled]
  exact congrArg (Option.map _) hloop

/-! ## Reading a line -/

section Line

variable {rp : RioT Char} {done rest : Text} {is : List (Item Char)}

/-- What the loop leaves that reads a line to `rest`, when it gets `x`. -/
def lined (done rest : Text) (x : Text × Ending × List (Item Char)) : ℤ × Text :=
  if x.2.1 = .fail then (-1, done ++ (x.1 ++ rest.drop x.1.length))
  else if x.2.1 = .eof ∧ done ++ x.1 = [] then (0, done ++ rest)
  else ((done ++ x.1).length, done ++ (x.1 ++ '\x00' :: rest.drop (x.1.length + 1)))

theorem lined_cons (done rest : Text) (c : Char) (x : Text × Ending × List (Item Char)) :
    lined (done ++ [c]) (rest.drop 1) x = lined done rest (c :: x.1, x.2) := by
  have hne : done ++ c :: x.1 ≠ [] := fun h => List.cons_ne_nil c x.1 (List.append_eq_nil_iff.mp h).2
  unfold lined
  dsimp only
  rw [List.append_assoc done [c] x.1, List.drop_drop, List.drop_drop, Nat.add_comm 1, Nat.add_comm 1]
  by_cases hfail : x.2.1 = .fail
  · rw [if_pos hfail, if_pos hfail, List.append_assoc]
    rfl
  · rw [if_neg hfail, if_neg hfail, if_neg (fun h => hne h.2), if_neg (fun h => hne h.2), List.append_assoc]
    rfl

theorem lined_full (done rest : Text) (is : List (Item Char)) :
    lined done rest ([], .full, is) = ((done.length : ℤ), done ++ '\x00' :: rest.drop 1) := by
  have hfull : ¬ (Ending.full = .eof ∧ done ++ [] = []) := fun h => absurd h.1 (by decide)
  unfold lined
  dsimp only
  rw [if_neg (by decide), if_neg hfull, List.append_nil]
  rfl

theorem lined_eof (done rest : Text) (is : List (Item Char)) :
    lined done rest ([], .eof, is) =
      if done.length + 1 = 1 then ((0 : ℤ), done ++ rest) else ((done.length : ℤ), done ++ '\x00' :: rest.drop 1) := by
  unfold lined
  dsimp only
  rw [if_neg (by decide), List.append_nil]
  refine if_congr ?_ rfl rfl
  rw [Nat.add_eq_right, List.length_eq_zero_iff]
  exact and_iff_right rfl

theorem endLine_eq (rp : RioT Char) (hroom : 0 < rest.length) :
    endLine rp (done ++ rest) done.length (done.length + 1) =
      some (((done.length : ℤ), done ++ '\x00' :: rest.drop 1), rp) := by
  unfold endLine
  rw [writeAt_append done (show ['\x00'].length ≤ rest.length from hroom), Option.map_some, Nat.cast_add_one,
    Int.add_sub_cancel]
  rfl

theorem endLine_eof (rp : RioT Char) (hroom : 0 < rest.length) (is : List (Item Char)) :
    (if done.length + 1 = 1 then some (((0 : ℤ), done ++ rest), rp)
      else endLine rp (done ++ rest) done.length (done.length + 1)) = some (lined done rest ([], .eof, is), rp) := by
  rw [lined_eof, endLine_eq rp hroom]
  split
  · rfl
  · rfl

theorem readlinebLoop_spec (done : Text) {maxlen : ℕ} (h : rp.Ok) (hroom : 0 < rest.length)
    (hmax : maxlen ≤ done.length + rest.length) (hint : maxlen ≤ INT_MAX)
    (hfuel : maxlen - (done.length + 1) < fuel) :
    ∃ rp', readlinebLoop fuel rp (done ++ rest) done.length (done.length + 1) maxlen =
        some (lined done rest (scan (· = '\n') (maxlen - (done.length + 1)) rp.items), rp') ∧
      rp'.Ok ∧ rp'.items = (scan (· = '\n') (maxlen - (done.length + 1)) rp.items).2.2 := by
  induction fuel generalizing rp done rest with
  | zero => omega
  | succ fuel ih =>
    rw [readlinebLoop_succ]
    by_cases hn : done.length + 1 < maxlen
    · obtain ⟨m, hm⟩ : ∃ m, maxlen - (done.length + 1) = m + 1 := ⟨maxlen - (done.length + 2), by omega⟩
      obtain ⟨r, rp', hread, hok, htook⟩ := rio_read_spec h Nat.one_pos
      rw [if_pos hn, hread, Option.bind_some, hm]
      generalize rp.items = is at htook ⊢
      generalize hrest : rp'.items = is' at htook ⊢
      cases htook with
      | fail => exact ⟨rp', rfl, hok, hrest⟩
      | last => exact ⟨rp', endLine_eof rp' hroom _, hok, hrest⟩
      | eof => exact ⟨rp', endLine_eof rp' hroom _, hok, hrest⟩
      | @got s _ hne hle =>
        obtain ⟨c, rfl⟩ := List.length_eq_one_iff.mp (Nat.le_antisymm hle (List.length_pos_of_ne_nil hne))
        have hwrite : writeAt (done ++ rest) done.length [c] = some (done ++ ([c] ++ rest.drop 1)) :=
          writeAt_append done (show [c].length ≤ rest.length from hroom)
        have hlen : (rest.drop 1).length = rest.length - 1 := List.length_drop
        have hdone : done.length + 1 = (done ++ [c]).length := by
          rw [List.length_append, List.length_singleton]
        have hn' : ¬ done.length + 1 = INT_MAX := by omega
        dsimp only
        rw [hwrite, Option.bind_some, if_neg hn', ← List.append_assoc, hdone]
        rw [show [c].map Item.val ++ is' = .val c :: is' from rfl, scan_val]
        by_cases hc : c = '\n'
        · rw [if_pos hc, if_pos (decide_eq_true hc), ← lined_cons done rest c ([], .full, is'), lined_full]
          exact ⟨rp', endLine_eq rp' (by omega), hok, hrest⟩
        · obtain ⟨rp'', hloop, hok', hitems⟩ := ih (done ++ [c]) hok (show 0 < (rest.drop 1).length by omega)
            (by omega) (by omega)
          have hm' : maxlen - ((done ++ [c]).length + 1) = m := by omega
          rw [hm', hrest] at hloop hitems
          rw [if_neg hc, if_neg (fun h => hc (of_decide_eq_true h)), ← lined_cons]
          exact ⟨rp'', hloop, hok', hitems⟩
    · have hm : maxlen - (done.length + 1) = 0 := by omega
      rw [if_neg hn, hm, endLine_eq rp hroom]
      exact ⟨rp, congrArg some (Prod.ext (lined_full done rest rp.items).symm rfl), h, rfl⟩

theorem lined_nil (usrbuf : Text) (maxlen : ℕ) (is : List (Item Char)) :
    lined [] usrbuf (scan (· = '\n') (maxlen - 1) is) = (readline usrbuf maxlen is).1 := by
  unfold lined readline
  dsimp only
  rw [List.nil_append, List.nil_append, List.nil_append]
  split
  · rfl
  · split
    · rfl
    · rfl

theorem readline_items (usrbuf : Text) (maxlen : ℕ) (is : List (Item Char)) :
    (readline usrbuf maxlen is).2 = (scan (· = '\n') (maxlen - 1) is).2.2 := by
  unfold readline
  dsimp only
  split
  · rfl
  · split
    · rfl
    · rfl

theorem rio_readlineb_spec {usrbuf : Text} {maxlen : ℕ} (h : rp.Ok) (hroom : 0 < usrbuf.length)
    (hmax : maxlen ≤ usrbuf.length) (hint : maxlen ≤ INT_MAX) :
    ∃ rp', rio_readlineb rp usrbuf maxlen = some ((readline usrbuf maxlen rp.items).1, rp') ∧ rp'.Ok ∧
      rp'.items = (readline usrbuf maxlen rp.items).2 := by
  obtain ⟨rp', hloop, hok, hitems⟩ := readlinebLoop_spec [] h hroom
    (show maxlen ≤ 0 + usrbuf.length by omega) hint (show maxlen - 1 < maxlen + 1 by omega)
  refine ⟨rp', ?_, hok, ?_⟩
  · rw [← lined_nil]
    exact hloop
  · rw [readline_items]
    exact hitems

end Line

/-! ## Writing -/

namespace Writer

/-- No call fails, or takes nothing. -/
def Willing (w : Writer α) : Prop := ∀ x ∈ w.fd, x ≠ .fail ∧ x ≠ .took 0

/-- `w'` has sent `s` in front of what `w` had to send, and met nothing but what `w` had to meet. -/
structure After (w : Writer α) (s : List α) (w' : Writer α) : Prop where
  sent : w'.sent = w.sent ++ s
  fd : ∀ x ∈ w'.fd, x ∈ w.fd

variable {w w' w'' : Writer α} {s t : List α}

theorem After.refl (w : Writer α) : w.After [] w := ⟨(List.append_nil _).symm, fun _ hx => hx⟩

theorem After.trans (h : w.After s w') (h' : w'.After t w'') : w.After (s ++ t) w'' :=
  ⟨by rw [h'.sent, h.sent, List.append_assoc], fun x hx => h.fd x (h'.fd x hx)⟩

theorem After.willing (h : w.After s w') (hw : w.Willing) : w'.Willing := fun x hx => hw x (h.fd x hx)

/-- A call of `write`: some bytes are taken; or none, and then it was interrupted, or something is wrong. -/
theorem write_spec (w : Writer α) (hs : 0 < s.length) :
    (∃ k, 0 < k ∧ k ≤ s.length ∧ (w.write s).1 = k ∧ w.After (s.take k) (w.write s).2 ∧
        ((w.write s).2.fd.length < w.fd.length ∨ k = s.length ∧ (w.write s).2.fd.length = w.fd.length)) ∨
      (w.write s).1 ≤ 0 ∧ w.After [] (w.write s).2 ∧ (w.write s).2.fd.length < w.fd.length ∧
        (w.Willing → (w.write s).2.eintr = true) := by
  obtain ⟨fd, eintr, sent⟩ := w
  match fd with
  | [] =>
    refine Or.inl ⟨s.length, hs, Nat.le_refl _, rfl, ⟨?_, fun x hx => hx⟩, Or.inr ⟨rfl, rfl⟩⟩
    rw [List.take_length]
    rfl
  | .intr :: fd =>
    exact Or.inr ⟨show (-1 : ℤ) ≤ 0 by decide, ⟨(List.append_nil _).symm, fun x hx => List.mem_cons_of_mem _ hx⟩,
      Nat.lt_succ_self _, fun _ => rfl⟩
  | .fail :: fd =>
    exact Or.inr ⟨show (-1 : ℤ) ≤ 0 by decide, ⟨(List.append_nil _).symm, fun x hx => List.mem_cons_of_mem _ hx⟩,
      Nat.lt_succ_self _, fun hw => absurd rfl (hw _ List.mem_cons_self).1⟩
  | .took 0 :: fd =>
    exact Or.inr ⟨Int.le_refl 0, ⟨rfl, fun x hx => List.mem_cons_of_mem _ hx⟩,
      Nat.lt_succ_self _, fun hw => absurd rfl (hw _ List.mem_cons_self).2⟩
  | .took (k + 1) :: fd =>
    have hlen : (s.take (k + 1)).length = min (k + 1) s.length := List.length_take
    refine Or.inl ⟨(s.take (k + 1)).length, by omega, by omega, rfl, ⟨?_, fun x hx => List.mem_cons_of_mem _ hx⟩,
      Or.inl (Nat.lt_succ_self _)⟩
    show sent ++ s.take (k + 1) = _
    rw [hlen, ← List.take_eq_take_min]

end Writer

variable {w : Writer α}

/-- The loop sends a front part of the bytes, and all of them unless it fails. -/
theorem writenLoop_spec (hpos : 0 < fuel) (hfuel : 0 < s.length → w.fd.length + 2 ≤ fuel) :
    ∃ ok w' t, writenLoop fuel w s = some (ok, w') ∧ w.After t w' ∧ t <+: s ∧ (ok = true ↔ t = s) ∧
      (w.Willing → ok = true) := by
  induction fuel generalizing w s with
  | zero => exact absurd hpos (Nat.lt_irrefl 0)
  | succ fuel ih =>
    unfold writenLoop
    by_cases hs : 0 < s.length
    · have hfuel := hfuel hs
      rw [if_pos hs]
      dsimp only
      rcases w.write_spec hs with ⟨k, hk, hle, hnw, hafter, hfd⟩ | ⟨hnw, hafter, hfd, hwilling⟩
      · have hnpos : ¬ (k : ℤ) ≤ 0 := by omega
        have hdrop : (s.drop k).length = s.length - k := List.length_drop
        rw [hnw, if_neg hnpos, Int.toNat_natCast]
        obtain ⟨ok, w', t, hloop, hafter', hprefix, hok, hwill⟩ := ih (w := (w.write s).2) (s := s.drop k)
          (by omega) (fun h => by omega)
        refine ⟨ok, w', s.take k ++ t, hloop, hafter.trans hafter', ?_, hok.trans ⟨fun h => ?_, fun h => ?_⟩,
          fun h => hwill (hafter.willing h)⟩
        · obtain ⟨u, hu⟩ := hprefix
          exact ⟨u, by rw [List.append_assoc, hu, List.take_append_drop]⟩
        · rw [h, List.take_append_drop]
        · exact List.append_cancel_left (h.trans (List.take_append_drop k s).symm)
      · rw [if_pos hnw]
        by_cases heintr : (w.write s).2.eintr = true
        · rw [if_pos heintr]
          obtain ⟨ok, w', t, hloop, hafter', hprefix, hok, hwill⟩ := ih (w := (w.write s).2) (s := s)
            (by omega) (fun _ => by omega)
          exact ⟨ok, w', t, hloop, hafter.trans hafter', hprefix, hok, fun h => hwill (hafter.willing h)⟩
        · rw [if_neg heintr]
          refine ⟨false, _, [], rfl, hafter, List.nil_prefix, ⟨nofun, fun h => ?_⟩, fun h => absurd (hwilling h) heintr⟩
          rw [← h] at hs
          exact absurd hs (Nat.lt_irrefl 0)
    · obtain rfl : s = [] := List.eq_nil_of_length_eq_zero (by omega)
      rw [if_neg hs]
      exact ⟨true, w, [], rfl, .refl w, List.nil_prefix, ⟨fun _ => rfl, fun _ => rfl⟩, fun _ => rfl⟩

/-- `rio_writen` sends the bytes and returns their number, or sends a front part and returns -1; the latter only where
a call of `write` fails or takes nothing. -/
theorem rio_writen_spec {usrbuf : List α} (w : Writer α) (hfit : n ≤ usrbuf.length) :
    ∃ w' t, w.After t w' ∧
      ((rio_writen w usrbuf n = some ((n : ℤ), w') ∧ t = usrbuf.take n) ∨
        (rio_writen w usrbuf n = some (-1, w') ∧ t <+: usrbuf.take n ∧ t ≠ usrbuf.take n ∧ ¬ w.Willing)) := by
  obtain ⟨ok, w', t, hloop, hafter, hprefix, hok, hwill⟩ :=
    writenLoop_spec (w := w) (s := usrbuf.take n) (Nat.succ_pos (w.fd.length + 1)) fun _ => Nat.le_refl _
  refine ⟨w', t, hafter, ?_⟩
  unfold rio_writen
  rw [if_pos hfit, hloop]
  cases ok with
  | true => exact Or.inl ⟨rfl, hok.mp rfl⟩
  | false =>
    exact Or.inr ⟨rfl, hprefix, fun h => Bool.false_ne_true (hok.mpr h), fun h => Bool.false_ne_true (hwill h)⟩

end Csapp.Rio
