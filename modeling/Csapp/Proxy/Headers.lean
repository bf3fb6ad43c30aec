import Csapp.Lib.Buffer
import Csapp.Proxy.Doit
import Mathlib.Data.List.TakeWhile

/-!
# Proxy.Headers — what `read_requesthdrs` leaves in `extra_hdrs`

The loop on the array of the caller, which is not initialised: every line that is kept is copied behind the last one,
with no look at what is left of the array, and without one nothing is written.  `Proxy.Doit` has the same loop on the
string that the array holds (`readHdrs_string`).  So the array holds the lines that are kept if they fit, have no
`\0` in them and there is one, or the array happened to hold the empty string (`forwards_iff`).
-/

namespace Csapp.Proxy

open Csapp.Lib

/-- The array `extra_hdrs`. -/
def HdrArray : Type := { l : Text // l.length = MAXLINE }

/-- The loop, at most `n` lines: -1, or 0 with the array and the host; `none` is a copy behind the end of the array.
`off` is how far `extra_hdrs` has been advanced. -/
def readHdrs : ℕ → Stream → Text → ℕ → Text → Option (Option (Text × Text))
  | 0, _, _, _, _ => some none
  | n + 1, rio, extra_hdrs, off, host =>
    match rio_readlineb rio with
    | none => some none
    | some (line, rio) =>
      let buf := cstr line
      if buf = "\r\n".toList then some (some (extra_hdrs, host)) else
      match scanWord buf with
      | none => some none
      | some (hdr_key, rest) =>
        match scanWord rest with
        | none => some none
        | some (hdr_val, _) =>
          if hdr_key = "Host:".toList then readHdrs n rio extra_hdrs off hdr_val
          else if hdr_key = "User-Agent:".toList ∨ hdr_key = "Connection:".toList ∨
              hdr_key = "Proxy-Connection:".toList then
            readHdrs n rio extra_hdrs off host
          else
            match writeAt extra_hdrs off (buf ++ ['\x00']) with
            | none => none
            | some extra_hdrs => readHdrs n rio extra_hdrs (off + buf.length) host

/-! ## The array and the string that it holds -/

/-- The array `arr`, which was `arr₀`, holds what has been copied; nothing has been written if that is nothing. -/
structure Holds (arr₀ arr : Text) (off : ℕ) (s : Text) : Prop where
  length : arr.length = MAXLINE
  off_eq : off = s.length
  lt : s.length < MAXLINE
  prefix_ : s ≠ [] → s ++ ['\x00'] <+: arr
  empty : s = [] → arr = arr₀
  noNul : '\x00' ∉ s

section Strings

variable {s t arr₀ arr : Text} {off : ℕ}

theorem cstr_noNul (s : Text) : '\x00' ∉ cstr s := by
  intro h
  simpa using List.mem_takeWhile_imp h

theorem cstr_of_prefix (hs : '\x00' ∉ s) (h : s ++ ['\x00'] <+: t) : cstr t = s := by
  obtain ⟨r, rfl⟩ := h
  rw [cstr, List.append_assoc, List.takeWhile_append_of_pos]
  · exact List.append_nil s
  · intro x hx
    refine decide_eq_true ?_
    rintro rfl
    exact hs hx

theorem HdrArray.holds (arr : HdrArray) : Holds arr.1 arr.1 0 [] :=
  ⟨arr.2, rfl, by decide, fun h => absurd rfl h, fun _ => rfl, List.not_mem_nil⟩

/-- A string that fits is copied behind the others. -/
theorem Holds.copy (h : Holds arr₀ arr off s) {buf : Text} (hne : buf ≠ []) (hbuf : '\x00' ∉ buf)
    (hfit : (s ++ buf).length < MAXLINE) :
    ∃ arr', writeAt arr off (buf ++ ['\x00']) = some arr' ∧ Holds arr₀ arr' (off + buf.length) (s ++ buf) := by
  have htake : arr.take off = s := by
    rw [h.off_eq]
    by_cases hs : s = []
    · rw [hs]
      rfl
    · obtain ⟨r, hr⟩ := h.prefix_ hs
      rw [← hr, List.append_assoc, List.take_left]
  have hle : off + (buf ++ ['\x00']).length ≤ arr.length := by
    rw [List.length_append] at hfit ⊢
    rw [h.length, h.off_eq, List.length_singleton]
    omega
  obtain ⟨arr', hwrite⟩ : ∃ arr', writeAt arr off (buf ++ ['\x00']) = some arr' := ⟨_, writeAt_le hle⟩
  refine ⟨arr', hwrite, (length_writeAt hwrite).trans h.length, ?_, hfit, fun _ => ?_, fun hnil => ?_, ?_⟩
  · rw [h.off_eq, List.length_append]
  · have hfront := List.take_prefix (off + (buf ++ ['\x00']).length) arr'
    rw [take_writeAt hwrite, htake, ← List.append_assoc] at hfront
    exact hfront
  · exact absurd (List.append_eq_nil_iff.mp hnil).2 hne
  · rw [List.mem_append]
    exact not_or_intro h.noNul hbuf

theorem Holds.overflow (h : Holds arr₀ arr off s) {buf : Text} (hfit : MAXLINE ≤ (s ++ buf).length) :
    writeAt arr off (buf ++ ['\x00']) = none := by
  refine if_neg ?_
  rw [List.length_append] at hfit ⊢
  rw [h.length, h.off_eq, List.length_singleton]
  omega

/-- What the string in the array is. -/
theorem Holds.cstr_eq (h : Holds arr₀ arr off s) : cstr arr = if s = [] then cstr arr₀ else s := by
  by_cases hs : s = []
  · rw [if_pos hs, h.empty hs]
  · rw [if_neg hs, cstr_of_prefix h.noNul (h.prefix_ hs)]

end Strings

/-- The outcomes of the loop on the string and of the loop on the array. -/
def Headers.Matches (arr₀ : Text) : Headers → Option (Option (Text × Text)) → Prop
  | .failed, res => res = some none
  | .overflow, res => res = none
  | .ok extra_hdrs host, res =>
    ∃ arr, res = some (some (arr, host)) ∧ cstr arr = if extra_hdrs = [] then cstr arr₀ else extra_hdrs

/-- **The loop on the string** does what the loop on the array does. -/
theorem readHdrs_string (arr₀ : Text) : ∀ (n : ℕ) (rio : Stream) {arr extra_hdrs : Text} {off : ℕ} (host : Text),
    Holds arr₀ arr off extra_hdrs →
    (read_requesthdrs n rio extra_hdrs host).Matches arr₀ (readHdrs n rio arr off host)
  | 0, rio, arr, extra_hdrs, off, host, h => rfl
  | n + 1, rio, arr, extra_hdrs, off, host, h => by
    rw [read_requesthdrs, readHdrs]
    cases rio_readlineb rio with
    | none => exact rfl
    | some x =>
      obtain ⟨line, rio⟩ := x
      dsimp only
      by_cases hend : cstr line = "\r\n".toList
      · rw [if_pos hend, if_pos hend]
        exact ⟨arr, rfl, h.cstr_eq⟩
      · rw [if_neg hend, if_neg hend]
        cases hkey : scanWord (cstr line) with
        | none => exact rfl
        | some x =>
          obtain ⟨hdr_key, rest⟩ := x
          dsimp only
          cases scanWord rest with
          | none => exact rfl
          | some x =>
            obtain ⟨hdr_val, rest⟩ := x
            dsimp only
            by_cases hhost : hdr_key = "Host:".toList
            · rw [if_pos hhost, if_pos hhost]
              exact readHdrs_string arr₀ n rio hdr_val h
            · rw [if_neg hhost, if_neg hhost]
              by_cases hskip : hdr_key = "User-Agent:".toList ∨ hdr_key = "Connection:".toList ∨
                  hdr_key = "Proxy-Connection:".toList
              · rw [if_pos hskip, if_pos hskip]
                exact readHdrs_string arr₀ n rio host h
              · rw [if_neg hskip, if_neg hskip]
                by_cases hfit : MAXLINE ≤ (extra_hdrs ++ cstr line).length
                · rw [if_pos hfit, h.overflow hfit]
                  exact rfl
                · have hne : cstr line ≠ [] := by
                    intro hnil
                    rw [hnil] at hkey
                    cases hkey
                  obtain ⟨arr', h1, h2⟩ := h.copy hne (cstr_noNul line) (Nat.lt_of_not_le hfit)
                  rw [if_neg hfit, h1]
                  exact readHdrs_string arr₀ n rio host h2

/-! ## Header lines -/

/-- `sscanf(buf, "%s %s", hdr_key, hdr_val)`. -/
def scanHeader (buf : Text) : Option (Text × Text) :=
  match scanWord buf with
  | none => none
  | some (hdr_key, rest) => (scanWord rest).map fun x => (hdr_key, x.1)

/-- A line that fits into `buf`, and is not the empty line that ends the headers. -/
structure HeaderLine where
  text : Text
  ends : ∃ t, text = t ++ ['\n'] ∧ '\n' ∉ t
  lt : text.length < MAXLINE
  ne : text ≠ "\r\n".toList

namespace HeaderLine

/-- The key and the value. -/
def header (l : HeaderLine) : Option (Text × Text) := scanHeader (cstr l.text)

def parses (l : HeaderLine) : Bool := l.header.isSome

/-- The value of a `Host:` line. -/
def hostValue (l : HeaderLine) : Option Text :=
  match l.header with
  | none => none
  | some (hdr_key, hdr_val) => if hdr_key = "Host:".toList then some hdr_val else none

/-- The key is none of those that the proxy sets itself. -/
def kept (l : HeaderLine) : Bool :=
  match l.header with
  | none => false
  | some (hdr_key, _) => !decide (hdr_key = "Host:".toList) && !decide (hdr_key = "User-Agent:".toList ∨
      hdr_key = "Connection:".toList ∨ hdr_key = "Proxy-Connection:".toList)

end HeaderLine

/-- The last `Host:` value, or the host of the URI. -/
def lastHost (host : Text) (lines : List HeaderLine) : Text := (lines.filterMap HeaderLine.hostValue).getLastD host

/-- The lines that are kept. -/
def keptLines (lines : List HeaderLine) : Text := (lines.filter HeaderLine.kept).flatMap HeaderLine.text

/-- What is copied before the loop ends: the strings of the kept lines, up to a line that cannot be parsed. -/
def copied (lines : List HeaderLine) : Text :=
  ((lines.takeWhile HeaderLine.parses).filter HeaderLine.kept).flatMap fun l => cstr l.text

/-- The lines, the empty line, and what the client sends behind it. -/
def headerStream (lines : List HeaderLine) (rest : Text) (failed : Bool) : Stream :=
  ⟨lines.flatMap HeaderLine.text ++ ("\r\n".toList ++ rest), failed⟩

section Lines

variable {l : HeaderLine} {lines : List HeaderLine} {extra_hdrs host rest t : Text} {failed : Bool} {n : ℕ}

theorem splitLine_line : ∀ {t : Text} {n : ℕ}, '\n' ∉ t → t.length < n → ∀ rest,
    splitLine n (t ++ '\n' :: rest) = (t ++ ['\n'], rest)
  | _, 0, _, hn, _ => absurd hn (Nat.not_lt_zero _)
  | [], n + 1, _, _, rest => if_pos rfl
  | x :: t, n + 1, ht, hn, rest => by
    obtain ⟨hx, ht⟩ := not_or.mp (mt List.mem_cons.mpr ht)
    rw [List.cons_append, splitLine, if_neg (Ne.symm hx), splitLine_line ht (Nat.lt_of_succ_lt_succ hn) rest]
    rfl

/-- A line that fits is read as a whole. -/
theorem readlineb_line (ht : '\n' ∉ t) (hlen : (t ++ ['\n']).length < MAXLINE) (rest : Text) (failed : Bool) :
    rio_readlineb ⟨t ++ '\n' :: rest, failed⟩ = some (t ++ ['\n'], ⟨rest, failed⟩) := by
  rw [List.length_append, List.length_singleton] at hlen
  have hsplit := splitLine_line (n := MAXLINE - 1) ht (by omega) rest
  rw [rio_readlineb, hsplit]
  exact if_pos (Or.inl List.getLast?_concat)

theorem HeaderLine.readlineb (l : HeaderLine) (rest : Text) (failed : Bool) :
    rio_readlineb ⟨l.text ++ rest, failed⟩ = some (l.text, ⟨rest, failed⟩) := by
  obtain ⟨t, htext, ht⟩ := l.ends
  have hlt := l.lt
  rw [htext] at hlt
  rw [htext, List.append_assoc]
  exact readlineb_line ht hlt rest failed

theorem HeaderLine.cstr_ne (l : HeaderLine) : cstr l.text ≠ "\r\n".toList := by
  intro h
  obtain ⟨t, htext, ht⟩ := l.ends
  have hpre : "\r\n".toList <+: t ++ ['\n'] := by
    rw [← htext, ← h]
    exact List.takeWhile_prefix _
  rcases List.prefix_concat_iff.mp hpre with heq | hpre
  · exact l.ne (htext.trans heq.symm)
  · exact ht (hpre.subset (List.mem_cons_of_mem _ List.mem_cons_self))

theorem HeaderLine.scanWord_of_header {hdr_key hdr_val : Text} (h : l.header = some (hdr_key, hdr_val)) :
    ∃ rest rest', scanWord (cstr l.text) = some (hdr_key, rest) ∧ scanWord rest = some (hdr_val, rest') := by
  rw [HeaderLine.header, scanHeader] at h
  cases hkey : scanWord (cstr l.text) with
  | none =>
    rw [hkey] at h
    cases h
  | some x =>
    obtain ⟨key, rest⟩ := x
    rw [hkey] at h
    obtain ⟨⟨value, rest'⟩, hval, h⟩ := Option.map_eq_some_iff.mp h
    obtain ⟨rfl, rfl⟩ := Prod.mk.inj h
    exact ⟨rest, rest', rfl, hval⟩

/-- A line with less than two words. -/
theorem read_requesthdrs_unparsed (n : ℕ) (rest : Text) (failed : Bool) (extra_hdrs host : Text)
    (h : l.header = none) : read_requesthdrs (n + 1) ⟨l.text ++ rest, failed⟩ extra_hdrs host = .failed := by
  rw [read_requesthdrs, l.readlineb]
  dsimp only
  rw [if_neg l.cstr_ne]
  rw [HeaderLine.header, scanHeader] at h
  cases hkey : scanWord (cstr l.text) with
  | none => rfl
  | some x =>
    obtain ⟨hdr_key, rest'⟩ := x
    rw [hkey] at h
    dsimp only
    rw [Option.map_eq_none_iff.mp h]

theorem read_requesthdrs_parsed (n : ℕ) (rest : Text) (failed : Bool) (extra_hdrs host : Text)
    {hdr_key hdr_val : Text} (h : l.header = some (hdr_key, hdr_val)) :
    read_requesthdrs (n + 1) ⟨l.text ++ rest, failed⟩ extra_hdrs host =
      if hdr_key = "Host:".toList then read_requesthdrs n ⟨rest, failed⟩ extra_hdrs hdr_val
      else if hdr_key = "User-Agent:".toList ∨ hdr_key = "Connection:".toList ∨
          hdr_key = "Proxy-Connection:".toList then read_requesthdrs n ⟨rest, failed⟩ extra_hdrs host
      else if MAXLINE ≤ (extra_hdrs ++ cstr l.text).length then .overflow
      else read_requesthdrs n ⟨rest, failed⟩ (extra_hdrs ++ cstr l.text) host := by
  obtain ⟨rest', rest'', hkey, hval⟩ := HeaderLine.scanWord_of_header h
  rw [read_requesthdrs, l.readlineb]
  dsimp only
  rw [if_neg l.cstr_ne, hkey]
  dsimp only
  rw [hval]

theorem HeaderLine.kept_iff {hdr_key hdr_val : Text} (h : l.header = some (hdr_key, hdr_val)) :
    l.kept = true ↔ hdr_key ≠ "Host:".toList ∧ ¬ (hdr_key = "User-Agent:".toList ∨
      hdr_key = "Connection:".toList ∨ hdr_key = "Proxy-Connection:".toList) := by
  rw [HeaderLine.kept, h]
  dsimp only
  rw [Bool.and_eq_true_iff, Bool.not_eq_true', Bool.not_eq_true', decide_eq_false_iff_not, decide_eq_false_iff_not]

theorem HeaderLine.hostValue_eq {hdr_key hdr_val : Text} (h : l.header = some (hdr_key, hdr_val)) :
    l.hostValue = if hdr_key = "Host:".toList then some hdr_val else none := by
  rw [HeaderLine.hostValue, h]

/-- A line that is kept has no value for the host. -/
theorem HeaderLine.hostValue_of_kept (h : l.kept = true) : l.hostValue = none := by
  cases hheader : l.header with
  | none =>
    rw [HeaderLine.kept, hheader] at h
    cases h
  | some x => rw [HeaderLine.hostValue_eq hheader, if_neg ((HeaderLine.kept_iff hheader).mp h).1]

/-- One line of the loop. -/
theorem read_requesthdrs_line (n : ℕ) (l : HeaderLine) (rest : Text) (failed : Bool) (extra_hdrs host : Text) :
    read_requesthdrs (n + 1) ⟨l.text ++ rest, failed⟩ extra_hdrs host =
      if l.parses = false then .failed
      else if l.kept = true then
        if MAXLINE ≤ (extra_hdrs ++ cstr l.text).length then .overflow
        else read_requesthdrs n ⟨rest, failed⟩ (extra_hdrs ++ cstr l.text) host
      else read_requesthdrs n ⟨rest, failed⟩ extra_hdrs (l.hostValue.getD host) := by
  cases hheader : l.header with
  | none =>
    have hparses : l.parses = false := by rw [HeaderLine.parses, hheader, Option.isSome_none]
    rw [read_requesthdrs_unparsed n rest failed extra_hdrs host hheader, if_pos hparses]
  | some x =>
    obtain ⟨hdr_key, hdr_val⟩ := x
    have hparses : ¬ l.parses = false := by
      rw [HeaderLine.parses, hheader, Option.isSome_some]
      exact Bool.noConfusion
    have hkept := HeaderLine.kept_iff hheader
    rw [read_requesthdrs_parsed n rest failed extra_hdrs host hheader, if_neg hparses,
      HeaderLine.hostValue_eq hheader]
    by_cases hhost : hdr_key = "Host:".toList
    · rw [if_pos hhost, if_pos hhost, if_neg fun h => (hkept.mp h).1 hhost, Option.getD_some]
    · rw [if_neg hhost, if_neg hhost, Option.getD_none]
      by_cases hskip : hdr_key = "User-Agent:".toList ∨ hdr_key = "Connection:".toList ∨
          hdr_key = "Proxy-Connection:".toList
      · rw [if_pos hskip, if_neg fun h => (hkept.mp h).2 hskip]
      · rw [if_neg hskip, if_pos (hkept.mpr ⟨hhost, hskip⟩)]

theorem read_requesthdrs_empty (n : ℕ) (rest : Text) (failed : Bool) (extra_hdrs host : Text) :
    read_requesthdrs (n + 1) ⟨"\r\n".toList ++ rest, failed⟩ extra_hdrs host = .ok extra_hdrs host := by
  have hread : rio_readlineb ⟨"\r\n".toList ++ rest, failed⟩ = some ("\r\n".toList, ⟨rest, failed⟩) :=
    readlineb_line (t := ['\r']) (by decide) (by decide) rest failed
  rw [read_requesthdrs, hread]
  rfl

theorem copied_cons (l : HeaderLine) (lines : List HeaderLine) : copied (l :: lines) =
    if l.parses = true then (if l.kept = true then cstr l.text else []) ++ copied lines else [] := by
  rw [copied, List.takeWhile_cons]
  by_cases hparses : l.parses = true
  · rw [if_pos hparses, if_pos hparses, List.filter_cons]
    by_cases hkept : l.kept = true
    · rw [if_pos hkept, if_pos hkept, List.flatMap_cons]
      rfl
    · rw [if_neg hkept, if_neg hkept]
      rfl
  · rw [if_neg hparses, if_neg hparses]
    rfl

theorem lastHost_cons (host : Text) (l : HeaderLine) (lines : List HeaderLine) :
    lastHost host (l :: lines) = lastHost (l.hostValue.getD host) lines := by
  rw [lastHost, lastHost, List.filterMap_cons]
  cases l.hostValue with
  | none => rfl
  | some value => rw [List.getLastD_cons]; rfl

/-- The loop on the string, over all lines. -/
theorem read_requesthdrs_lines : ∀ (lines : List HeaderLine) {n : ℕ} (rest : Text) (failed : Bool)
    {extra_hdrs : Text} (host : Text), lines.length < n → extra_hdrs.length < MAXLINE →
    read_requesthdrs n (headerStream lines rest failed) extra_hdrs host =
      if MAXLINE ≤ (extra_hdrs ++ copied lines).length then .overflow
      else if lines.all HeaderLine.parses = true then .ok (extra_hdrs ++ copied lines) (lastHost host lines)
      else .failed
  | [], 0, _, _, _, _, hn, _ => absurd hn (Nat.not_lt_zero _)
  | _ :: _, 0, _, _, _, _, hn, _ => absurd hn (Nat.not_lt_zero _)
  | [], n + 1, rest, failed, extra_hdrs, host, _, hlt => by
    have hcopied : extra_hdrs ++ copied [] = extra_hdrs := List.append_nil _
    rw [headerStream, List.flatMap_nil, List.nil_append, read_requesthdrs_empty, hcopied,
      if_neg (Nat.not_le.mpr hlt)]
    rfl
  | l :: lines, n + 1, rest, failed, extra_hdrs, host, hn, hlt => by
    have hstream : headerStream (l :: lines) rest failed =
        ⟨l.text ++ (headerStream lines rest failed).text, failed⟩ := by
      rw [headerStream, headerStream, List.flatMap_cons, List.append_assoc]
    rw [hstream, read_requesthdrs_line]
    rw [copied_cons, List.all_cons, lastHost_cons]
    cases hparses : l.parses with
    | false =>
      rw [if_pos rfl, if_neg Bool.false_ne_true, List.append_nil, if_neg (Nat.not_le.mpr hlt), Bool.false_and,
        if_neg Bool.false_ne_true]
    | true =>
      rw [if_neg Bool.noConfusion, if_pos rfl, Bool.true_and]
      by_cases hkept : l.kept = true
      · rw [if_pos hkept, if_pos hkept, HeaderLine.hostValue_of_kept hkept, Option.getD_none, ← List.append_assoc]
        by_cases hfit : MAXLINE ≤ (extra_hdrs ++ cstr l.text).length
        · have hfit' : MAXLINE ≤ (extra_hdrs ++ cstr l.text ++ copied lines).length := by
            rw [List.length_append]
            exact Nat.le_trans hfit (Nat.le_add_right _ _)
          rw [if_pos hfit, if_pos hfit']
        · rw [if_neg hfit]
          exact read_requesthdrs_lines lines rest failed host (Nat.lt_of_succ_lt_succ hn) (Nat.lt_of_not_le hfit)
      · rw [if_neg hkept, if_neg hkept, List.nil_append]
        exact read_requesthdrs_lines lines rest failed _ (Nat.lt_of_succ_lt_succ hn) hlt

theorem length_le_headerStream (lines : List HeaderLine) (rest : Text) (failed : Bool) :
    lines.length ≤ (headerStream lines rest failed).text.length := by
  induction lines with
  | nil => exact Nat.zero_le _
  | cons l lines ih =>
    obtain ⟨t, htext, -⟩ := l.ends
    simp only [headerStream, List.flatMap_cons, List.append_assoc, List.length_append, List.length_cons] at ih ⊢
    rw [htext, List.length_append, List.length_singleton]
    omega

/-! ## The lines and their strings -/

theorem cstr_eq_iff (s : Text) : cstr s = s ↔ '\x00' ∉ s := by
  constructor
  · intro h
    rw [← h]
    exact cstr_noNul s
  · intro h
    refine List.takeWhile_eq_self_iff.mpr fun x hx => decide_eq_true ?_
    rintro rfl
    exact h hx

/-- Strings that are cut off somewhere are not the lines, one behind the other. -/
theorem flatMap_cstr_eq_iff (lines : List HeaderLine) :
    (lines.flatMap fun l => cstr l.text) = lines.flatMap HeaderLine.text ↔ ∀ l ∈ lines, '\x00' ∉ l.text := by
  have hle : ∀ lines : List HeaderLine,
      (lines.flatMap fun l => cstr l.text).length ≤ (lines.flatMap HeaderLine.text).length := by
    intro lines
    induction lines with
    | nil => exact Nat.le_refl _
    | cons l lines ih =>
      have hl : (cstr l.text).length ≤ l.text.length := (List.takeWhile_prefix _).length_le
      rw [List.flatMap_cons, List.flatMap_cons, List.length_append, List.length_append]
      omega
  induction lines with
  | nil => exact iff_of_true rfl fun l hl => absurd hl List.not_mem_nil
  | cons l lines ih =>
    rw [List.flatMap_cons, List.flatMap_cons, List.forall_mem_cons]
    refine Iff.trans ?_ (and_congr (cstr_eq_iff l.text) ih)
    constructor
    · intro h
      have hpre : cstr l.text <+: l.text := List.takeWhile_prefix _
      have hlen := congrArg List.length h
      have hrest := hle lines
      have hl := hpre.length_le
      rw [List.length_append, List.length_append] at hlen
      have heq : cstr l.text = l.text := hpre.eq_of_length (by omega)
      rw [heq] at h
      exact ⟨heq, List.append_cancel_left h⟩
    · rintro ⟨h1, h2⟩
      rw [h1, h2]

/-- The line that is kept has a key. -/
theorem HeaderLine.cstr_ne_nil {l : HeaderLine} (h : l.kept = true) : cstr l.text ≠ [] := by
  intro hnil
  rw [HeaderLine.kept, HeaderLine.header, hnil] at h
  cases h

theorem copied_of_parses (h : lines.all HeaderLine.parses = true) :
    copied lines = (lines.filter HeaderLine.kept).flatMap fun l => cstr l.text := by
  rw [copied, List.takeWhile_eq_self_iff.mpr (List.all_eq_true.mp h)]

/-- The strings that are copied, or without one what was there, are the lines that are kept. -/
theorem copied_eq_keptLines_iff (h : lines.all HeaderLine.parses = true) (junk : Text) :
    (if copied lines = [] then junk else copied lines) = keptLines lines ↔
      (∀ l ∈ lines, l.kept = true → '\x00' ∉ l.text) ∧ ((∃ l ∈ lines, l.kept = true) ∨ junk = []) := by
  have hnul : (∀ l ∈ lines.filter HeaderLine.kept, '\x00' ∉ l.text) ↔
      ∀ l ∈ lines, l.kept = true → '\x00' ∉ l.text := by
    simp only [List.mem_filter, and_imp]
  rw [copied_of_parses h, ← hnul, ← flatMap_cstr_eq_iff, ← keptLines]
  cases hfilter : lines.filter HeaderLine.kept with
  | nil =>
    have hnone : ¬ ∃ l ∈ lines, l.kept = true := by
      rintro ⟨l, hl, hkept⟩
      exact List.filter_eq_nil_iff.mp hfilter l hl hkept
    have hlines : keptLines lines = [] := by
      rw [keptLines, hfilter]
      rfl
    rw [hlines, or_iff_right hnone, List.flatMap_nil, if_pos rfl, and_iff_right rfl]
  | cons l kept =>
    have hmem : l ∈ lines.filter HeaderLine.kept := by
      rw [hfilter]
      exact List.mem_cons_self
    obtain ⟨hl, hkept⟩ := List.mem_filter.mp hmem
    have hne : ((l :: kept).flatMap fun l => cstr l.text) ≠ [] := by
      rw [List.flatMap_cons]
      exact List.append_ne_nil_of_left_ne_nil (HeaderLine.cstr_ne_nil hkept) _
    rw [if_neg hne, and_iff_left (Or.inl ⟨l, hl, hkept⟩)]

end Lines

/-! ## Forwarding -/

/-- Nothing is written behind the end of the array, and if the loop returns 0, then the string in the array is the
lines that are kept, one behind the other, and the host is the one that is to be asked. -/
def Forwards (lines : List HeaderLine) (rest : Text) (failed : Bool) (arr : HdrArray) (host : Text) : Prop :=
  ∃ res, readHdrs ((headerStream lines rest failed).text.length + 1) (headerStream lines rest failed) arr.1 0 host =
      some res ∧
    ∀ extra_hdrs host', res = some (extra_hdrs, host') →
      cstr extra_hdrs = keptLines lines ∧ host' = lastHost host lines

/-- **The headers are forwarded** if and only if what is copied leaves room for its end, and, if all lines can be
parsed, those that are kept have no `\0` in them and there is one, or the array held the empty string. -/
theorem forwards_iff (lines : List HeaderLine) (rest : Text) (failed : Bool) (arr : HdrArray) (host : Text) :
    Forwards lines rest failed arr host ↔
      (copied lines).length < MAXLINE ∧
        (lines.all HeaderLine.parses = true →
          (∀ l ∈ lines, l.kept = true → '\x00' ∉ l.text) ∧ ((∃ l ∈ lines, l.kept = true) ∨ cstr arr.1 = [])) := by
  have hrun := readHdrs_string arr.1 ((headerStream lines rest failed).text.length + 1)
    (headerStream lines rest failed) host arr.holds
  have hlines := length_le_headerStream lines rest failed
  rw [read_requesthdrs_lines lines rest failed host (Nat.lt_succ_of_le hlines) (by decide), List.nil_append] at hrun
  rw [Forwards]
  by_cases hfit : MAXLINE ≤ (copied lines).length
  · rw [if_pos hfit] at hrun
    refine iff_of_false ?_ fun h => absurd h.1 (Nat.not_lt.mpr hfit)
    rintro ⟨res, hres, -⟩
    cases hrun.symm.trans hres
  · rw [if_neg hfit] at hrun
    rw [and_iff_right (Nat.lt_of_not_le hfit)]
    by_cases hparse : lines.all HeaderLine.parses = true
    · rw [if_pos hparse] at hrun
      obtain ⟨extra_hdrs, hres, hstr⟩ := hrun
      rw [imp_iff_right hparse, ← copied_eq_keptLines_iff hparse, ← hstr]
      constructor
      · rintro ⟨res, hres', hall⟩
        obtain rfl := Option.some.inj (hres.symm.trans hres')
        exact (hall extra_hdrs _ rfl).1
      · intro h
        refine ⟨_, hres, fun extra_hdrs' host' heq => ?_⟩
        obtain ⟨rfl, rfl⟩ := Prod.mk.inj (Option.some.inj heq)
        exact ⟨h, rfl⟩
    · rw [if_neg hparse] at hrun
      refine iff_of_true ⟨none, hrun, fun _ _ h => nomatch h⟩ fun h => absurd h hparse

theorem length_junk : ('x' :: List.replicate (MAXLINE - 1) '\x00').length = MAXLINE := by
  rw [List.length_cons, List.length_replicate]
  rfl

/-- Without a line that is kept nothing is written: what is forwarded is the "x" that the array held. -/
theorem junk_forwarded : ¬ Forwards [] [] false ⟨_, length_junk⟩ "a".toList := by
  rintro ⟨res, hres, hall⟩
  have hread : rio_readlineb (headerStream [] [] false) = some ("\r\n".toList, ⟨[], false⟩) :=
    readlineb_line (t := ['\r']) (by decide) (by decide) [] false
  rw [readHdrs, hread] at hres
  have hjunk : cstr ('x' :: List.replicate (MAXLINE - 1) '\x00') = [] := (hall _ _ (Option.some.inj hres).symm).1
  rw [cstr, List.takeWhile_cons_of_pos (by decide)] at hjunk
  exact List.cons_ne_nil _ _ hjunk

end Csapp.Proxy
