import Csapp.Lib.Scan

/-!
# Capture.Http — `ParseHTTP`

Three loops read the title up to the first line break, the headers up to the first empty line and the body, again
up to the first line break.  Each is a scan (`grabLoop_eq`).  A body is returned whole only if it has no line
break in it, and a loop reads past the end of data that ends with a part of what it looks for (`parseHTTP_iff`).
-/

namespace Csapp.Capture

open Csapp.Lib

structure HTTPMessage where
  Title : List UInt8
  Headers : List UInt8
  Body : List UInt8
  deriving DecidableEq

/-- `data[offset] != pattern[0] || data[offset+1] != pattern[1] || …`; `none` is an index out of range. -/
def unlike (data : List UInt8) (offset : ℕ) : List UInt8 → Option Bool
  | [] => some false
  | p :: pattern =>
    match data[offset]? with
    | none => none
    | some x => if x ≠ p then some true else unlike data (offset + 1) pattern

/-- The loops of `ParseHTTP`: up to the pattern, what is passed goes to `res`. -/
def grabLoop (data pattern res : List UInt8) (offset : ℕ) : Option (List UInt8 × ℕ) :=
  if h : offset < data.length then
    match unlike data offset pattern with
    | none => none
    | some true => grabLoop data pattern (res ++ [data[offset]]) (offset + 1)
    | some false => some (res, offset)
  else some (res, offset)
termination_by data.length - offset

def newLine : UInt8 := 0xA

def carriageReturn : UInt8 := 0xD

/-- The end of a line. -/
def crlf : List UInt8 := [carriageReturn, newLine]

/-- The end of a line and an empty line. -/
def crlfcrlf : List UInt8 := [carriageReturn, newLine, carriageReturn, newLine]

def ParseHTTP (data : List UInt8) : Option HTTPMessage := do
  let (title, offset) ← grabLoop data crlf [] 0
  let offset := offset + 2
  let (headers, offset) ← grabLoop data crlfcrlf [] offset
  let offset := offset + 4
  let (body, _) ← grabLoop data crlf [] offset
  some ⟨title, headers, body⟩

/-! ## The loops -/

theorem unlike_eq (data : List UInt8) : ∀ (offset : ℕ) (pattern : List UInt8),
    unlike data offset pattern = differs pattern (data.drop offset)
  | _, [] => by
    cases data.drop _ <;> rfl
  | offset, p :: pattern => by
    rw [unlike]
    by_cases h : offset < data.length
    · rw [List.getElem?_eq_getElem h, List.drop_eq_getElem_cons h, differs, ← unlike_eq data (offset + 1) pattern]
      exact ite_not _ _ _
    · rw [List.getElem?_eq_none (Nat.le_of_not_lt h), List.drop_eq_nil_of_le (Nat.le_of_not_lt h)]
      rfl

/-- A loop is a scan of what is left. -/
theorem grabLoop_eq (data pattern : List UInt8) (res : List UInt8) (offset : ℕ) : grabLoop data pattern res offset =
    (scan pattern (data.drop offset)).map fun x => (res ++ x.1, offset + x.1.length) := by
  induction hn : data.length - offset generalizing res offset with
  | zero =>
    have hle : data.length ≤ offset := Nat.le_of_sub_eq_zero hn
    rw [grabLoop, dif_neg (Nat.not_lt.mpr hle), List.drop_eq_nil_of_le hle, scan, Option.map_some, List.append_nil]
    rfl
  | succ n ih =>
    have h : offset < data.length := by omega
    have hdrop := List.drop_eq_getElem_cons h
    rw [grabLoop, dif_pos h, unlike_eq, hdrop, scan]
    cases differs pattern (data[offset] :: data.drop (offset + 1)) with
    | none => rfl
    | some b =>
      cases b with
      | false =>
        dsimp only
        rw [Option.map_some, List.append_nil]
        rfl
      | true =>
        dsimp only
        rw [ih (res ++ [data[offset]]) (offset + 1) (by omega), Option.map_map]
        refine congrArg (fun f => Option.map f _) (funext fun x => ?_)
        rw [Function.comp_apply, List.append_assoc, List.length_cons, Nat.add_right_comm]
        rfl

theorem crlf_ne_nil : crlf ≠ [] := List.cons_ne_nil _ _

theorem crlfcrlf_ne_nil : crlfcrlf ≠ [] := List.cons_ne_nil _ _

/-- The three loops as scans. -/
theorem parseHTTP_eq (data : List UInt8) : ParseHTTP data = (scan crlf data).bind fun title =>
    (scan crlfcrlf (title.2.drop 2)).bind fun headers =>
      (scan crlf (headers.2.drop 4)).map fun body => ⟨title.1, headers.1, body.1⟩ := by
  rw [ParseHTTP, grabLoop_eq, List.drop_zero]
  cases h1 : scan crlf data with
  | none => rfl
  | some title =>
    have hrest : data.drop (title.1.length + 2) = title.2.drop 2 := by
      rw [scan_append crlf_ne_nil h1, List.drop_length_add_append]
    simp only [Option.map_some, Option.bind_eq_bind, Option.bind_some, List.nil_append, Nat.zero_add, grabLoop_eq,
      hrest]
    cases h2 : scan crlfcrlf (title.2.drop 2) with
    | none => rfl
    | some headers =>
      have hbody : data.drop (title.1.length + 2 + headers.1.length + 4) = headers.2.drop 4 := by
        rw [Nat.add_assoc, ← List.drop_drop, hrest, scan_append crlfcrlf_ne_nil h2, List.drop_length_add_append]
      simp only [Option.map_some, Option.bind_some, hbody]
      cases scan crlf (headers.2.drop 4) with
      | none => rfl
      | some body => rfl

/-! ## Where it panics -/

/-- The data ends in the middle of what a loop is looking for: the end of the title, the end of the headers, or
the line break that ends the body. -/
def EndsInside (data : List UInt8) : Prop :=
  BreaksOff crlf data ∨ ∃ title rest, data = title ++ (crlf ++ rest) ∧ First crlf title ∧
    (BreaksOff crlfcrlf rest ∨ ∃ headers body, rest = headers ++ (crlfcrlf ++ body) ∧ First crlfcrlf headers ∧
      BreaksOff crlf body)

theorem parseHTTP_eq_none (data : List UInt8) : ParseHTTP data = none ↔ EndsInside data := by
  rw [parseHTTP_eq, scan_bind_eq_none crlf_ne_nil (by simp [scan]), EndsInside]
  refine or_congr_right (exists_congr fun title => exists_congr fun rest => and_congr_right fun _ =>
    and_congr_right fun _ => ?_)
  have hdrop : (crlf ++ rest).drop 2 = rest := rfl
  rw [hdrop, scan_bind_eq_none crlfcrlf_ne_nil (by simp [scan])]
  refine or_congr_right (exists_congr fun headers => exists_congr fun body => and_congr_right fun _ =>
    and_congr_right fun _ => ?_)
  have hdrop : (crlfcrlf ++ body).drop 4 = body := rfl
  rw [hdrop, Option.map_eq_none_iff, scan_eq_none crlf_ne_nil]

/-! ## What it returns -/

section Message

variable {title headers body : List UInt8}

/-- A title without carriage returns. -/
theorem first_title (h : carriageReturn ∉ title) : First crlf title := by
  induction title with
  | nil => exact first_nil crlf_ne_nil
  | cons a title ih =>
    obtain ⟨ha, htitle⟩ := not_or.mp (mt List.mem_cons.mpr h)
    refine (ih htitle).cons ?_
    intro hpre
    exact ha (List.cons_prefix_cons.mp hpre).1

theorem breaksOff_crlf (h : ¬ crlf <:+: body) : BreaksOff crlf body ↔ [carriageReturn] <:+ body := by
  constructor
  · rintro ⟨-, s, hs, hsuffix, hpre⟩
    rcases s with _ | ⟨x, _ | ⟨y, s⟩⟩
    · exact absurd rfl hs
    · obtain ⟨rfl, -⟩ := List.cons_prefix_cons.mp hpre
      exact hsuffix
    · have hs : x :: y :: s = crlf := hpre.eq_of_length_le (Nat.le_add_left _ _)
      rw [hs] at hsuffix
      exact absurd hsuffix.isInfix h
  · intro hsuffix
    exact ⟨h, _, List.cons_ne_nil _ _, hsuffix, ⟨[newLine], rfl⟩⟩

/-- The empty line is found behind the headers unless a part of it is the end of the headers. -/
theorem first_headers (h : ¬ crlfcrlf <:+: headers) : First crlfcrlf headers ↔ ¬ crlf <:+ headers := by
  have hlast : crlfcrlf.dropLast = [carriageReturn, newLine, carriageReturn] := rfl
  rw [First, hlast]
  refine not_congr ⟨fun hinfix => ?_, ?_⟩
  · rcases List.infix_append_iff.mp hinfix with hin | hin | ⟨t₁, t₂, hsplit, hsuffix, hpre⟩
    · exact absurd hin h
    · exact absurd hin.length_le (by decide)
    · -- The pattern overlaps itself in its first half only.
      have hall : ∀ n ≤ 3, crlfcrlf = crlfcrlf.take (4 - n) ++ [carriageReturn, newLine, carriageReturn].take n →
          n = 0 ∨ n = 2 := by decide
      have hlen : crlfcrlf.length = t₁.length + t₂.length := by rw [hsplit, List.length_append]
      have hle : t₂.length ≤ 3 := hpre.length_le
      have ht₁ : t₁ = crlfcrlf.take (4 - t₂.length) := by
        have hn : 4 - t₂.length = t₁.length := by
          have hfour : crlfcrlf.length = 4 := rfl
          omega
        rw [hn, hsplit, List.take_left]
      have ht₂ := List.prefix_iff_eq_take.mp hpre
      have hoverlap := hall t₂.length hle (by rw [← ht₁, ← ht₂, ← hsplit])
      rcases hoverlap with hn | hn
      · rw [hn] at ht₁
        rw [ht₁] at hsuffix
        exact absurd hsuffix.isInfix h
      · rw [hn] at ht₁
        rw [ht₁] at hsuffix
        exact hsuffix
  · rintro ⟨front, rfl⟩
    exact ⟨front, [carriageReturn], by simp [crlf, crlfcrlf]⟩

/-- Where the parts of a message are returned as they are. -/
def Plain (headers body : List UInt8) : Prop :=
  ¬ crlf <:+ headers ∧ ¬ crlf <:+: body ∧ ¬ [carriageReturn] <:+ body

theorem parseHTTP_message (htitle : carriageReturn ∉ title) (hheaders : ¬ crlfcrlf <:+: headers) :
    ParseHTTP (title ++ (crlf ++ (headers ++ (crlfcrlf ++ body)))) = some ⟨title, headers, body⟩ ↔
      Plain headers body := by
  have hdrop : (crlf ++ (headers ++ (crlfcrlf ++ body))).drop 2 = headers ++ (crlfcrlf ++ body) := rfl
  rw [parseHTTP_eq, scan_first crlf_ne_nil (first_title htitle), Option.bind_some, hdrop, Plain,
    ← first_headers hheaders]
  constructor
  · intro h
    obtain ⟨x, hx, h⟩ := Option.bind_eq_some_iff.mp h
    obtain ⟨y, hy, h⟩ := Option.map_eq_some_iff.mp h
    obtain ⟨-, rfl, rfl⟩ := HTTPMessage.mk.inj h
    have hfirst : First crlfcrlf x.1 := (scan_at_iff crlfcrlf_ne_nil y.1).mp ⟨x.2, hx⟩
    have hsnd : x.2 = crlfcrlf ++ y.1 := by
      rw [← Option.some.inj ((scan_first crlfcrlf_ne_nil hfirst y.1).symm.trans hx)]
    have hbody : x.2.drop 4 = y.1 := by
      rw [hsnd]
      rfl
    rw [hbody] at hy
    obtain ⟨hline, hend⟩ := (scan_end_iff crlf_ne_nil).mp ⟨y.2, hy⟩
    exact ⟨hfirst, hline, mt (breaksOff_crlf hline).mpr hend⟩
  · rintro ⟨hfirst, hline, hend⟩
    have hdrop : (crlfcrlf ++ body).drop 4 = body := rfl
    obtain ⟨r, hr⟩ := (scan_end_iff crlf_ne_nil).mpr ⟨hline, mt (breaksOff_crlf hline).mp hend⟩
    rw [scan_first crlfcrlf_ne_nil hfirst, Option.bind_some, hdrop, hr, Option.map_some]

end Message

/-- **`ParseHTTP`**: title, headers and body of a message come back as they are if and only if the headers do not
end with a line break and the body has none and does not end with half of one; and there is no index out of range
if and only if the data does not end inside of what is looked for. -/
theorem parseHTTP_iff (data : List UInt8) :
    (∀ title headers body, data = title ++ (crlf ++ (headers ++ (crlfcrlf ++ body))) → carriageReturn ∉ title →
      headers ≠ [] → ¬ crlfcrlf <:+: headers →
        (ParseHTTP data = some ⟨title, headers, body⟩ ↔ Plain headers body)) ∧
      ((∃ message, ParseHTTP data = some message) ↔ ¬ EndsInside data) := by
  constructor
  · rintro title headers body rfl htitle - hheaders
    exact parseHTTP_message htitle hheaders
  · rw [← parseHTTP_eq_none, ← Option.isSome_iff_exists, Option.isSome_iff_ne_none]

/-- `"G"`, `"H"` and a body that is `"a"`, a line break and `"b"`. -/
theorem body_cut : ParseHTTP ([71] ++ (crlf ++ ([72] ++ (crlfcrlf ++ [97, 13, 10, 98])))) ≠
    some ⟨[71], [72], [97, 13, 10, 98]⟩ := by
  have hplain : ¬ Plain [72] [97, 13, 10, 98] := by
    rintro ⟨-, hline, -⟩
    exact hline ⟨[97], [98], rfl⟩
  exact mt (parseHTTP_message (by decide) (by decide)).mp hplain

end Csapp.Capture
