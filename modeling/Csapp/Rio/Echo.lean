import Csapp.Proxy.Doit
import Csapp.Rio.Rio

/-!
# Rio.Echo — what is done with the lines of a connection

Any calls of `rio_readnb` and `rio_readlineb` on one `rio_t` return what the items of the input say (`rio_calls`); so
the line reader of the proxy is the one that `Proxy.Doit` has on its streams (`rio_readlineb_stream`).  `echo` sends
back what it has read: all of it, if no call fails, in whatever pieces it comes and goes (`echo_spec`).
-/

namespace Csapp.Rio

open Csapp.Lib Csapp.Lib.Arrivals Csapp.Proxy

/-! ## Calls one after another -/

/-- A call with the array that it fills. -/
inductive Call
  | readnb (usrbuf : Text) (n : ℕ)
  | readlineb (usrbuf : Text) (maxlen : ℕ)

namespace Call

/-- The array has room for what is asked for, and a line has no more characters than an `int` can count. -/
def Fits : Call → Prop
  | readnb usrbuf n => n ≤ usrbuf.length
  | readlineb usrbuf maxlen => 0 < usrbuf.length ∧ maxlen ≤ usrbuf.length ∧ maxlen ≤ INT_MAX

/-- What the call returns, and the array after it. -/
def run : Call → RioT Char → Option ((ℤ × Text) × RioT Char)
  | readnb usrbuf n, rp => rio_readnb rp usrbuf n
  | readlineb usrbuf maxlen, rp => rio_readlineb rp usrbuf maxlen

/-- The call on items. -/
def spec : Call → List (Item Char) → (ℤ × Text) × List (Item Char)
  | readnb usrbuf n, is => readn usrbuf n is
  | readlineb usrbuf maxlen, is => readline usrbuf maxlen is

theorem run_spec {c : Call} {rp : RioT Char} (hc : c.Fits) (h : rp.Ok) :
    ∃ rp', c.run rp = some ((c.spec rp.items).1, rp') ∧ rp'.Ok ∧ rp'.items = (c.spec rp.items).2 := by
  cases c with
  | readnb usrbuf n => exact rio_readnb_spec h hc
  | readlineb usrbuf maxlen => exact rio_readlineb_spec h hc.1 hc.2.1 hc.2.2

end Call

def runCalls : List Call → RioT Char → Option (List (ℤ × Text))
  | [], _ => some []
  | c :: cs, rp => (c.run rp).bind fun x => (runCalls cs x.2).map (x.1 :: ·)

def specCalls : List Call → List (Item Char) → List (ℤ × Text)
  | [], _ => []
  | c :: cs, is => (c.spec is).1 :: specCalls cs (c.spec is).2

theorem runCalls_spec {cs : List Call} {rp : RioT Char} (hcs : ∀ c ∈ cs, c.Fits) (h : rp.Ok) :
    runCalls cs rp = some (specCalls cs rp.items) := by
  induction cs generalizing rp with
  | nil => rfl
  | cons c cs ih =>
    obtain ⟨rp', hrun, hok, hitems⟩ := c.run_spec (hcs c List.mem_cons_self) h
    rw [runCalls, hrun, Option.bind_some, ih (fun d hd => hcs d (List.mem_cons_of_mem c hd)) hok, hitems]
    rfl

/-- **Buffered reading**: what calls of `rio_readnb` and `rio_readlineb` in any order return, and leave in their arrays,
does not depend on the pieces in which the input arrives and the interruptions between them. -/
theorem rio_calls {cs : List Call} {rp : RioT Char} (hcs : ∀ c ∈ cs, c.Fits) (h : rp.Ok)
    (fd : List (Arrival Char)) : runCalls cs (rio_readinitb rp fd) = some (specCalls cs (items fd)) := by
  rw [runCalls_spec hcs (h.readinitb fd), RioT.items_readinitb]

theorem rio_calls_sample :
    runCalls [.readlineb (List.replicate 5 '-') 5, .readnb (List.replicate 3 '-') 3]
        (rio_readinitb (.cleared '-') [.chunk 'a' [], .intr, .chunk '\n' ['b'], .chunk 'c' ['d', 'e']]) =
      some [(2, ['a', '\n', '\x00', '-', '-']), (3, ['b', 'c', 'd'])] := by
  have hfits : ∀ c ∈ [Call.readlineb (List.replicate 5 '-') 5, .readnb (List.replicate 3 '-') 3], c.Fits := by
    intro c hc
    rcases List.mem_pair.mp hc with rfl | rfl
    · exact ⟨by decide, by decide, by decide⟩
    · exact Nat.le_refl 3
  exact (rio_calls hfits (RioT.cleared_ok '-') _).trans rfl

/-! ## The lines of the proxy -/

/-- The items of a stream. -/
def streamItems (s : Stream) : List (Item Char) := s.text.map .val ++ if s.failed then [.fail] else []

/-- The line is complete, or as long as it may be. -/
def Complete (n : ℕ) (line : Text) : Prop := line.getLast? = some '\n' ∨ line.length = n

theorem complete_cons {c : Char} (hc : c ≠ '\n') (n : ℕ) (line : Text) :
    Complete (n + 1) (c :: line) ↔ Complete n line := by
  unfold Complete
  rw [List.getLast?_cons, List.length_cons, Nat.add_right_cancel_iff]
  refine or_congr_left ?_
  cases line.getLast? with
  | none => exact ⟨fun h => absurd (Option.some.inj h) hc, nofun⟩
  | some d => exact Iff.rfl

/-- The line that is taken of a stream. -/
theorem scan_streamItems (n : ℕ) (s : Stream) :
    (Complete n (splitLine n s.text).1 → scan (· = '\n') n (streamItems s) =
        ((splitLine n s.text).1, .full, streamItems { s with text := (splitLine n s.text).2 })) ∧
      (¬ Complete n (splitLine n s.text).1 → (splitLine n s.text).2 = [] ∧
        scan (· = '\n') n (streamItems s) = ((splitLine n s.text).1, if s.failed then .fail else .eof, [])) := by
  obtain ⟨text, failed⟩ := s
  induction n generalizing text with
  | zero => exact ⟨fun _ => rfl, fun h => absurd (Or.inr rfl) h⟩
  | succ n ih =>
    cases text with
    | nil =>
      refine ⟨fun h => ?_, fun _ => ⟨rfl, ?_⟩⟩
      · rcases h with h | h
        · cases h
        · cases h
      · cases failed with
        | true => rfl
        | false => rfl
    | cons c text =>
      have hitems : streamItems ⟨c :: text, failed⟩ = .val c :: streamItems ⟨text, failed⟩ := rfl
      rw [hitems, scan_val]
      dsimp only
      rw [splitLine]
      by_cases hc : c = '\n'
      · rw [if_pos hc, if_pos (decide_eq_true hc)]
        exact ⟨fun _ => rfl, fun h => absurd (Or.inl (congrArg some hc)) h⟩
      · obtain ⟨hfull, hend⟩ := ih text
        rw [if_neg hc, if_neg (fun h => hc (of_decide_eq_true h))]
        dsimp only
        rw [complete_cons hc]
        refine ⟨fun h => ?_, fun h => ⟨(hend h).1, ?_⟩⟩
        · rw [hfull h]
        · rw [(hend h).2]

/-- What `readline` leaves of a line is the line and the byte 0. -/
theorem take_line (line usrbuf : Text) :
    (line ++ '\x00' :: usrbuf.drop (line.length + 1)).take (line.length + 1) = line ++ ['\x00'] := by
  rw [List.take_append, List.take_of_length_le (Nat.le_succ _), Nat.add_sub_cancel_left]
  rfl

/-- `rio_readlineb` on the lines of a stream. -/
theorem rio_readlineb_stream {rp : RioT Char} {usrbuf : Text} {s : Stream} (h : rp.Ok)
    (hroom : MAXLINE ≤ usrbuf.length) (hitems : rp.items = streamItems s) :
    ∃ rc usrbuf' rp', rio_readlineb rp usrbuf MAXLINE = some ((rc, usrbuf'), rp') ∧ rp'.Ok ∧
      match Proxy.rio_readlineb s with
      | none => rc ≤ 0
      | some (line, s') => rc = line.length ∧ 0 < rc ∧ usrbuf'.take (line.length + 1) = line ++ ['\x00'] ∧
          rp'.items = streamItems s' := by
  have hpos : 0 < usrbuf.length := Nat.lt_of_lt_of_le (by decide) hroom
  obtain ⟨rp', hread, hok, hitems'⟩ := rio_readlineb_spec h hpos hroom (by decide)
  obtain ⟨hfull, hend⟩ := scan_streamItems (MAXLINE - 1) s
  refine ⟨_, _, rp', hread, hok, ?_⟩
  rw [readline_items] at hitems'
  unfold readline Proxy.rio_readlineb
  rw [hitems] at hitems' ⊢
  generalize splitLine (MAXLINE - 1) s.text = x at hfull hend ⊢
  obtain ⟨line, rest⟩ := x
  by_cases hcomplete : line.getLast? = some '\n' ∨ line.length = MAXLINE - 1
  · have hlen : 0 < line.length := by
      rcases hcomplete with h | h
      · cases line with
        | nil => cases h
        | cons => exact Nat.succ_pos _
      · rw [h]
        decide
    have hscan := hfull hcomplete
    rw [hscan] at hitems' ⊢
    dsimp only
    rw [if_pos hcomplete, if_neg (show ¬ Ending.full = .fail by decide),
      if_neg (fun h => absurd h.1 (show ¬ Ending.full = .eof by decide))]
    exact ⟨rfl, Int.natCast_pos.mpr hlen, take_line line usrbuf, hitems'⟩
  · obtain ⟨hrest, hscan⟩ := hend hcomplete
    rw [hscan] at hitems' ⊢
    dsimp only at hrest ⊢
    rw [if_neg hcomplete]
    cases hfailed : s.failed with
    | true =>
      rw [if_pos (Or.inl rfl), if_pos (if_pos rfl)]
      exact (show (-1 : ℤ) ≤ 0 by decide)
    | false =>
      have heof : (if false = true then Ending.fail else .eof) = .eof := if_neg Bool.false_ne_true
      rw [heof, if_neg (show ¬ Ending.eof = .fail by decide)]
      by_cases hnil : line = []
      · rw [if_pos (Or.inr hnil), if_pos ⟨rfl, hnil⟩]
      · rw [if_neg (fun h => h.elim Bool.false_ne_true hnil), if_neg (fun h => hnil h.2)]
        refine ⟨rfl, Int.natCast_pos.mpr (List.length_pos_of_ne_nil hnil), take_line line usrbuf, ?_⟩
        rw [hitems', hrest]
        rfl

/-! ## echo.c -/

/-- The loop of `echo`; whether it ends with the file, or in `unix_error`. -/
def echoLoop : ℕ → RioT Char → Text → Writer Char → Option (Bool × Writer Char)
  | 0, _, _, _ => none
  | fuel + 1, rio, buf, connfd =>
    (rio_readlineb rio buf MAXLINE).bind fun
      | ((n, buf), rio) =>
        if n < 0 then some (false, connfd)
        else if n = 0 then some (true, connfd)
        else (rio_writen connfd buf n.toNat).bind fun
          | (rc, connfd) => if rc = n then echoLoop fuel rio buf connfd else some (false, connfd)

/-- `echo` on a connection that is read from `fd` and written to `connfd`; `rio` and `buf` are not initialised. -/
def echo (fd : List (Arrival Char)) (connfd : Writer Char) (rio : RioT Char) (buf : Text) :
    Option (Bool × Writer Char) :=
  echoLoop ((items fd).length + 1) (rio_readinitb rio fd) buf connfd

/-- Behind the end of the file there is nothing else. -/
def EofStays (is : List (Item Char)) : Prop := ∀ s rest, is = s ++ .eof :: rest → ∀ x ∈ rest, x = .eof

theorem EofStays.suffix {is rest : List (Item Char)} (h : EofStays is) (s : List (Item Char)) (his : is = s ++ rest) :
    EofStays rest := by
  intro t u htu
  exact h (s ++ t) u (by rw [his, htu, List.append_assoc])

theorem eofStays_vals (s : Text) {rest : List (Item Char)} (hrest : ∀ x ∈ rest, x = .eof) :
    EofStays (s.map .val ++ rest) := by
  induction s with
  | nil =>
    intro t u h x hx
    have h : rest = t ++ .eof :: u := h
    refine hrest x ?_
    rw [h]
    exact List.mem_append_right t (List.mem_cons_of_mem _ hx)
  | cons a s ih =>
    intro t u h
    cases t with
    | nil => cases (List.cons.inj h).1
    | cons y t => exact ih t u (List.cons.inj h).2

theorem front_of_eof {is : List (Item Char)} (h : ∀ x ∈ is, x = .eof) : front is = ([], .eof) := by
  cases is with
  | nil => rfl
  | cons x is =>
    rw [h x List.mem_cons_self]
    rfl

/-- What `echo` has sent, of what there is in front of the end of the file. -/
structure Echoes (is : List (Item Char)) (connfd : Writer Char) (done : Bool) (connfd' : Writer Char) (t : Text) :
    Prop where
  after : connfd.After t connfd'
  sent : t <+: (front is).1
  all : done = true → t = (front is).1 ∧ (front is).2 = .eof
  ends : connfd.Willing → (front is).2 = .eof → done = true

section Echo

variable {is : List (Item Char)} {x : Text × Ending × List (Item Char)} {rio : RioT Char} {buf t : Text}
  {connfd connfd' : Writer Char} {done : Bool} {fuel : ℕ}

/-- What is left behind a line. -/
theorem front_rest (h : Split is x) (hx : x.2.1 ≠ .fail) (heof : EofStays is) :
    front is = (x.1 ++ (front x.2.2).1, (front x.2.2).2) ∧ EofStays x.2.2 ∧ x.2.2.length + x.1.length ≤ is.length := by
  obtain ⟨s, e, rest⟩ := x
  cases e with
  | full =>
    have his : is = s.map .val ++ rest := h
    refine ⟨by rw [his, front_append], heof.suffix _ his, ?_⟩
    rw [his, List.length_append, List.length_map, Nat.add_comm]
  | eof =>
    rcases h with his | ⟨his, rfl⟩
    · have hrest := heof _ rest his
      have his' : is = (s.map .val ++ [.eof]) ++ rest := by rw [his, List.append_assoc, List.singleton_append]
      refine ⟨by rw [his, front_append, front_of_eof hrest]; rfl, heof.suffix _ his', ?_⟩
      rw [his, List.length_append, List.length_map, List.length_cons]
      dsimp only
      omega
    · have his' : is = s.map .val ++ [] := his.trans (List.append_nil _).symm
      refine ⟨by rw [his', front_append], heof.suffix _ his', ?_⟩
      rw [his, List.length_map, List.length_nil, Nat.zero_add]
  | fail => exact absurd rfl hx

theorem Echoes.failed (h : Split is x) (hx : x.2.1 = .fail) (connfd : Writer Char) :
    Echoes is connfd false connfd [] := by
  have hfront := h.front_eq (by rw [hx]; decide)
  rw [hx] at hfront
  exact ⟨.refl connfd, List.nil_prefix, nofun, fun _ h => by rw [hfront] at h; cases h⟩

theorem Echoes.closed (h : Split is x) (hx : x.2.1 = .eof) (hnil : x.1 = []) (connfd : Writer Char) :
    Echoes is connfd true connfd [] := by
  have hfront := h.front_eq (by rw [hx]; decide)
  rw [hx, hnil] at hfront
  exact ⟨.refl connfd, List.nil_prefix, fun _ => by rw [hfront]; exact ⟨rfl, rfl⟩, fun _ _ => rfl⟩

/-- Nothing more is sent after a failure. -/
theorem Echoes.broken {s u : Text} {rest : List (Item Char)} (hafter : connfd.After u connfd') (hu : u <+: s)
    (hfront : front is = (s ++ (front rest).1, (front rest).2)) (hwilling : ¬ connfd.Willing) :
    Echoes is connfd false connfd' u where
  after := hafter
  sent := by
    rw [hfront]
    exact hu.trans (List.prefix_append _ _)
  all := nofun
  ends h := absurd h hwilling

/-- A line has gone out, and what follows it. -/
theorem Echoes.line {s : Text} {rest : List (Item Char)} {connfd'' : Writer Char} (hafter : connfd.After s connfd')
    (hfront : front is = (s ++ (front rest).1, (front rest).2)) (h : Echoes rest connfd' done connfd'' t) :
    Echoes is connfd done connfd'' (s ++ t) where
  after := hafter.trans h.after
  sent := by
    rw [hfront]
    exact List.prefix_append_right_inj s |>.mpr h.sent
  all hdone := by
    rw [hfront, (h.all hdone).1]
    exact ⟨rfl, (h.all hdone).2⟩
  ends hwilling heof := h.ends (hafter.willing hwilling) (by rwa [hfront] at heof)

theorem echoLoop_spec (hrio : rio.Ok) (hbuf : buf.length = MAXLINE) (heof : EofStays rio.items)
    (hfuel : rio.items.length < fuel) :
    ∃ done connfd' t, echoLoop fuel rio buf connfd = some (done, connfd') ∧ Echoes rio.items connfd done connfd' t := by
  induction fuel generalizing rio buf connfd with
  | zero => omega
  | succ fuel ih =>
    have hpos : 0 < buf.length := by
      rw [hbuf]
      decide
    obtain ⟨rio', hread, hok, hitems⟩ := rio_readlineb_spec hrio hpos (Nat.le_of_eq hbuf.symm) (by decide)
    have hsplit := scan_split (· = '\n') (MAXLINE - 1) rio.items
    have hlen := length_scan_le (· = '\n') (MAXLINE - 1) rio.items
    have hne := scan_ne_nil (· = '\n') rio.items (show 0 < MAXLINE - 1 by decide)
    unfold echoLoop
    rw [readline_items] at hitems
    unfold readline at hread
    generalize scan (· = '\n') (MAXLINE - 1) rio.items = x at hsplit hlen hne hread hitems
    by_cases hfail : x.2.1 = .fail
    · rw [hread, Option.bind_some]
      dsimp only
      rw [if_pos hfail]
      exact ⟨false, connfd, [], rfl, .failed hsplit hfail connfd⟩
    · obtain ⟨hfront, hstays, hrest⟩ := front_rest hsplit hfail heof
      by_cases hnil : x.2.1 = .eof ∧ x.1 = []
      · rw [hread, Option.bind_some]
        dsimp only
        rw [if_neg hfail, if_pos hnil]
        exact ⟨true, connfd, [], rfl, .closed hsplit hnil.1 hnil.2 connfd⟩
      · have hline : x.1 ≠ [] := by
          intro h
          cases he : x.2.1 with
          | full => exact hne he h
          | eof => exact hnil ⟨he, h⟩
          | fail => exact hfail he
        have hcount := List.length_pos_of_ne_nil hline
        rw [if_neg hfail, if_neg hnil] at hread
        rw [hread, Option.bind_some]
        dsimp only
        rw [if_neg (by omega), if_neg (by omega), Int.toNat_natCast]
        generalize hbuf' : x.1 ++ '\x00' :: buf.drop (x.1.length + 1) = buf'
        have htake : buf'.take x.1.length = x.1 := by rw [← hbuf', List.take_left]
        have hlen' : buf'.length = MAXLINE := by
          rw [← hbuf', List.length_append, List.length_cons, List.length_drop]
          omega
        obtain ⟨connfd', u, hafter, hwritten⟩ := rio_writen_spec connfd (show x.1.length ≤ buf'.length by omega)
        rcases hwritten with ⟨hwrite, hu⟩ | ⟨hwrite, hu, -, hwilling⟩
        · obtain rfl : u = x.1 := hu.trans htake
          obtain ⟨done, connfd'', t, hloop, hechoes⟩ := ih hok hlen' (by rwa [hitems]) (by rw [hitems]; omega)
          rw [hitems] at hechoes
          rw [hwrite, Option.bind_some]
          exact ⟨done, connfd'', x.1 ++ t, (if_pos rfl).trans hloop, .line hafter hfront hechoes⟩
        · rw [htake] at hu
          rw [hwrite, Option.bind_some]
          exact ⟨false, connfd', u, if_neg (by omega), .broken hafter hu hfront hwilling⟩

/-- **`echo`** sends back nothing but the bytes that the client has sent, in their order. -/
theorem echo_spec {fd : List (Arrival Char)} (connfd : Writer Char) (hrio : rio.Ok) (hbuf : buf.length = MAXLINE)
    (heof : EofStays (items fd)) :
    ∃ done connfd' t, echo fd connfd rio buf = some (done, connfd') ∧ Echoes (items fd) connfd done connfd' t := by
  have hitems := RioT.items_readinitb rio fd
  unfold echo
  rw [← hitems] at heof ⊢
  exact echoLoop_spec (hrio.readinitb fd) hbuf heof (Nat.lt_succ_self _)

end Echo

theorem echo_sample : ∃ connfd', echo [.chunk 'a' ['\n', 'b'], .intr, .chunk 'c' [], .eof] ⟨[.took 1, .intr], false, []⟩
    (.cleared '-') (List.replicate MAXLINE '-') = some (true, connfd') ∧ connfd'.sent = ['a', '\n', 'b', 'c'] := by
  have heof : EofStays (items [.chunk 'a' ['\n', 'b'], .intr, .chunk 'c' [], .eof]) :=
    eofStays_vals ['a', '\n', 'b', 'c'] fun x hx => List.mem_singleton.mp hx
  have hwilling : Writer.Willing (⟨[.took 1, .intr], false, []⟩ : Writer Char) := by
    intro x hx
    rcases List.mem_pair.mp hx with rfl | rfl
    · exact ⟨by decide, by decide⟩
    · exact ⟨by decide, by decide⟩
  obtain ⟨done, connfd', t, hrun, hechoes⟩ := echo_spec ⟨[.took 1, .intr], false, []⟩
    (RioT.cleared_ok '-') (List.length_replicate (a := '-')) heof
  obtain rfl := hechoes.ends hwilling rfl
  exact ⟨connfd', hrun, hechoes.after.sent.trans (hechoes.all rfl).1⟩

end Csapp.Rio
