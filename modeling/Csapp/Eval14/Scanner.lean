import Csapp.Eval14.Parse
import Csapp.Lib.Text
import Mathlib.Data.List.TakeWhile
import Mathlib.Tactic.Tauto

/-!
# Eval14.Scanner — the tokens of a text

`text/scanner` as `Parse` uses it, for identifiers and numbers: a byte order mark at the start is dropped, white space
is skipped, and what begins neither an identifier nor a number is a rune.  What a number must look like is not checked
here; the messages that the scanner prints are left out.

An identifier, a rune or a number in decimal is one token where a delimiter follows (`tokens_ident`, `tokens_rune`,
`tokens_numeral`).
-/

namespace Csapp.Eval14

open Csapp.Lib

/-- `unicode.IsLetter` and `unicode.IsDigit`; the byte order mark is not a letter. -/
structure Unicode where
  isLetter : Char → Bool
  isDigit : Char → Bool
  letter_ascii : ∀ c, c.toNat < 128 → isLetter c = c.isAlpha
  digit_ascii : ∀ c, c.toNat < 128 → isDigit c = c.isDigit
  letter_mark : isLetter '\uFEFF' = false

/-! ## text/scanner -/

/-- `GoWhitespace`. -/
def isWhitespace (c : Char) : Bool := c = '\t' || c = '\n' || c = '\r' || c = ' '

def isHex (c : Char) : Bool := c.isDigit || ('a' ≤ c && c ≤ 'f') || ('A' ≤ c && c ≤ 'F')

/-- `digits`, which takes all decimal digits for any base up to 10. -/
def digits (hex : Bool) (s : Text) : Text :=
  s.dropWhile fun c => (if hex then isHex c else c.isDigit) || c = '_'

/-- Whether the digits are hexadecimal, and what is behind the base. -/
def base : Text → Bool × Text
  | c :: d :: s =>
    if c = '0' ∧ (d = 'x' ∨ d = 'X') then (true, s)
    else if c = '0' ∧ (d = 'o' ∨ d = 'O' ∨ d = 'b' ∨ d = 'B') then (false, s)
    else (false, c :: d :: s)
  | s => (false, s)

def fraction (hex : Bool) : Text → Text
  | [] => []
  | c :: s => if c = '.' then digits hex s else c :: s

def sign : Text → Text
  | [] => []
  | c :: s => if c = '+' ∨ c = '-' then s else c :: s

def exponent : Text → Text
  | [] => []
  | c :: s => if c = 'e' ∨ c = 'E' ∨ c = 'p' ∨ c = 'P' then digits false (sign s) else c :: s

/-- What is behind the number. -/
def scanNumber (s : Text) : Text := exponent (fraction (base s).1 (digits (base s).1 (base s).2))

section Scan

variable (U : Unicode)

/-- `isIdentRune(ch, 0)`. -/
def isIdentStart (c : Char) : Bool := c = '_' || U.isLetter c

/-- `isIdentRune(ch, i)`, behind the start. -/
def isIdentRune (c : Char) : Bool := isIdentStart U c || U.isDigit c

/-- A digit, or a point with a digit behind it. -/
def startsNumber : Text → Bool
  | [] => false
  | c :: s => c.isDigit || (c = '.' && s.head?.any Char.isDigit)

/-- At most `n` tokens. -/
def scanTokens : ℕ → Text → List Token
  | 0, _ => []
  | n + 1, s =>
    match s.dropWhile isWhitespace with
    | [] => []
    | c :: s =>
      if isIdentStart U c then
        .ident (String.ofList (c :: s.takeWhile (isIdentRune U))) :: scanTokens n (s.dropWhile (isIdentRune U))
      else if startsNumber (c :: s) then
        .number (String.ofList ((c :: s).take (s.length + 1 - (scanNumber (c :: s)).length))) ::
          scanTokens n (scanNumber (c :: s))
      else .rune c :: scanTokens n s

/-- As many tokens as there are characters are enough. -/
def tokens (s : Text) : List Token := scanTokens U s.length s

/-- `Init` and `Scan`: a byte order mark at the start is dropped. -/
def dropMark : Text → Text
  | [] => []
  | c :: s => if c = '\uFEFF' then s else c :: s

def scan (input : String) : List Token := tokens U (dropMark input.toList)

end Scan

/-! ## Rounds -/

variable {U : Unicode} {s t : Text} {c : Char} {n m : ℕ}

theorem digits_suffix (hex : Bool) (s : Text) : digits hex s <:+ s := List.dropWhile_suffix _

theorem base_suffix (s : Text) : (base s).2 <:+ s := by
  match s with
  | [] => exact List.suffix_rfl
  | [c] => exact List.suffix_rfl
  | c :: d :: s =>
    have hs : s <:+ c :: d :: s := (List.suffix_cons d s).trans (List.suffix_cons c _)
    rw [base]
    split_ifs
    · exact hs
    · exact hs
    · exact List.suffix_rfl

theorem fraction_suffix (hex : Bool) (s : Text) : fraction hex s <:+ s := by
  match s with
  | [] => exact List.suffix_rfl
  | c :: s =>
    rw [fraction]
    split_ifs
    · exact (digits_suffix hex s).trans (List.suffix_cons c s)
    · exact List.suffix_rfl

theorem sign_suffix (s : Text) : sign s <:+ s := by
  match s with
  | [] => exact List.suffix_rfl
  | c :: s =>
    rw [sign]
    split_ifs
    · exact List.suffix_cons c s
    · exact List.suffix_rfl

theorem exponent_suffix (s : Text) : exponent s <:+ s := by
  match s with
  | [] => exact List.suffix_rfl
  | c :: s =>
    rw [exponent]
    split_ifs
    · exact ((digits_suffix false _).trans (sign_suffix s)).trans (List.suffix_cons c s)
    · exact List.suffix_rfl

theorem digits_cons (hex : Bool) (hc : c.isDigit = true) (s : Text) : digits hex (c :: s) = digits hex s := by
  refine List.dropWhile_cons_of_pos ?_
  cases hex <;> simp [isHex, hc]

/-- A number has a character at least. -/
theorem length_scanNumber (h : startsNumber (c :: s) = true) : (scanNumber (c :: s)).length ≤ s.length := by
  have hrest : ∀ t hex, (exponent (fraction hex t)).length ≤ t.length := fun t hex =>
    ((exponent_suffix _).trans (fraction_suffix hex t)).length_le
  unfold scanNumber
  rcases List.suffix_cons_iff.mp (base_suffix (c :: s)) with hbase | hbase
  · rw [hbase]
    by_cases hc : c.isDigit = true
    · rw [digits_cons _ hc]
      exact (hrest _ _).trans (digits_suffix _ s).length_le
    · -- the number begins with a point
      have hdot : c = '.' := by
        rw [startsNumber, Bool.eq_false_iff.mpr hc, Bool.false_or, Bool.and_eq_true] at h
        exact of_decide_eq_true h.1
      subst hdot
      have hdigits : ∀ hex, digits hex ('.' :: s) = '.' :: s := fun hex =>
        List.dropWhile_cons_of_neg (by cases hex <;> decide)
      rw [hdigits, fraction, if_pos rfl]
      exact ((exponent_suffix _).trans (digits_suffix _ s)).length_le
  · exact (hrest _ _).trans ((digits_suffix _ _).length_le.trans hbase.length_le)

/-- Rounds behind the end do nothing. -/
theorem scanTokens_enough (hn : s.length ≤ n) (hm : s.length ≤ m) : scanTokens U n s = scanTokens U m s := by
  induction n generalizing m s with
  | zero =>
    obtain rfl := List.length_eq_zero_iff.mp (Nat.le_zero.mp hn)
    cases m with
    | zero => rfl
    | succ m => rfl
  | succ n ih =>
    cases m with
    | zero =>
      obtain rfl := List.length_eq_zero_iff.mp (Nat.le_zero.mp hm)
      rfl
    | succ m =>
      rw [scanTokens, scanTokens]
      have hlen : (s.dropWhile isWhitespace).length ≤ s.length := (List.dropWhile_suffix _).length_le
      cases hs : s.dropWhile isWhitespace with
      | nil => rfl
      | cons c t =>
        rw [hs, List.length_cons] at hlen
        have hword : (t.dropWhile (isIdentRune U)).length ≤ t.length := (List.dropWhile_suffix _).length_le
        dsimp only
        rw [ih (m := m) (hword.trans (by omega)) (hword.trans (by omega)),
          ih (s := t) (m := m) (by omega) (by omega)]
        by_cases hnum : startsNumber (c :: t) = true
        · have hnumber := length_scanNumber hnum
          rw [ih (s := scanNumber (c :: t)) (m := m) (by omega) (by omega)]
        · rw [if_neg hnum, if_neg hnum]

theorem tokens_whitespace (hc : isWhitespace c = true) (s : Text) : tokens U (c :: s) = tokens U s := by
  have hstep : scanTokens U (s.length + 1) (c :: s) = scanTokens U (s.length + 1) s := by
    rw [scanTokens, scanTokens, List.dropWhile_cons_of_pos hc]
  unfold tokens
  rw [List.length_cons, hstep]
  exact scanTokens_enough (Nat.le_succ _) (Nat.le_refl _)

/-- A round that skips nothing. -/
theorem tokens_cons (hc : isWhitespace c = false) (s : Text) :
    tokens U (c :: s) =
      if isIdentStart U c then
        .ident (String.ofList (c :: s.takeWhile (isIdentRune U))) :: tokens U (s.dropWhile (isIdentRune U))
      else if startsNumber (c :: s) then
        .number (String.ofList ((c :: s).take (s.length + 1 - (scanNumber (c :: s)).length))) ::
          tokens U (scanNumber (c :: s))
      else .rune c :: tokens U s := by
  have hword : (s.dropWhile (isIdentRune U)).length ≤ s.length := (List.dropWhile_suffix _).length_le
  unfold tokens
  rw [List.length_cons, scanTokens, List.dropWhile_cons_of_neg (ne_true_of_eq_false hc)]
  dsimp only
  rw [scanTokens_enough (U := U) hword (Nat.le_refl _)]
  by_cases hnum : startsNumber (c :: s) = true
  · rw [scanTokens_enough (U := U) (length_scanNumber hnum) (Nat.le_refl _)]
  · rw [if_neg hnum, if_neg hnum]

/-! ## What the tokens are -/

/-- The text of an identifier. -/
def IsIdent (U : Unicode) (id : String) : Prop :=
  ∃ c s, id.toList = c :: s ∧ isIdentStart U c = true ∧ ∀ d ∈ s, isIdentRune U d = true

/-- The text of a number has no sign. -/
def Unsigned (text : String) : Prop := ∃ c s, text.toList = c :: s ∧ (c.isDigit = true ∨ c = '.')

/-- The token is one that the scanner may give. -/
def Token.Scanned (U : Unicode) : Token → Prop
  | .ident id => IsIdent U id
  | .number text => Unsigned text
  | .rune _ => True

theorem scanTokens_scanned (n : ℕ) (s : Text) : ∀ x ∈ scanTokens U n s, x.Scanned U := by
  induction n generalizing s with
  | zero => exact fun x hx => absurd hx List.not_mem_nil
  | succ n ih =>
    rw [scanTokens]
    cases s.dropWhile isWhitespace with
    | nil => exact fun x hx => absurd hx List.not_mem_nil
    | cons c t =>
      dsimp only
      split_ifs with hident hnum
      · refine List.forall_mem_cons.mpr ⟨⟨c, _, String.toList_ofList, hident, fun d hd => ?_⟩, ih _⟩
        exact List.mem_takeWhile_imp hd
      · refine List.forall_mem_cons.mpr ⟨?_, ih _⟩
        have hlen := length_scanNumber hnum
        obtain ⟨k, hk⟩ : ∃ k, t.length + 1 - (scanNumber (c :: t)).length = k + 1 :=
          ⟨t.length - (scanNumber (c :: t)).length, by omega⟩
        refine ⟨c, t.take k, by rw [String.toList_ofList, hk, List.take_succ_cons], ?_⟩
        rw [startsNumber] at hnum
        rcases Bool.or_eq_true_iff.mp hnum with h | h
        · exact Or.inl h
        · exact Or.inr (of_decide_eq_true (Bool.and_eq_true_iff.mp h).1)
      · exact List.forall_mem_cons.mpr ⟨trivial, ih _⟩

theorem scan_scanned (input : String) : ∀ x ∈ scan U input, x.Scanned U := scanTokens_scanned _ _

/-! ## Tokens and what follows them -/

/-- The end, or a delimiter. -/
def Ends (s : Text) : Prop := s = [] ∨ ∃ c t, c ∈ [' ', ',', '(', ')'] ∧ s = c :: t

theorem Unicode.isLetter_eq (U : Unicode) (hc : c.toNat < 128) (halpha : c.isAlpha = false) : U.isLetter c = false :=
  (U.letter_ascii c hc).trans halpha

theorem not_identStart (hc : c.toNat < 128) (halpha : c.isAlpha = false) (hne : c ≠ '_') :
    isIdentStart U c = false := by
  rw [isIdentStart, decide_eq_false hne, Bool.false_or, U.isLetter_eq hc halpha]

theorem not_identStart_of_mem (hc : c ∈ ['+', '-', '*', '/', ' ', ',', '(', ')', '\t', '\n', '\r']) :
    isIdentStart U c = false := by
  simp only [List.mem_cons, List.not_mem_nil, or_false] at hc
  rcases hc with rfl | rfl | rfl | rfl | rfl | rfl | rfl | rfl | rfl | rfl | rfl <;>
    exact not_identStart (by decide) (by decide) (by decide)

theorem Ends.not_identRune (h : Ends s) : s.head?.all fun c => !isIdentRune U c := by
  rcases h with rfl | ⟨c, t, hc, rfl⟩
  · rfl
  · have hstart : isIdentStart U c = false := not_identStart_of_mem (by
      simp only [List.mem_cons, List.not_mem_nil, or_false] at hc ⊢
      tauto)
    have hdigit : U.isDigit c = false := by
      simp only [List.mem_cons, List.not_mem_nil, or_false] at hc
      rcases hc with rfl | rfl | rfl | rfl <;> exact (U.digit_ascii _ (by decide)).trans (by decide)
    show (!isIdentRune U c) = true
    rw [isIdentRune, hstart, hdigit]
    rfl

/-- A maximal run in front is what is taken. -/
theorem takeWhile_front {p : Char → Bool} (hs : ∀ c ∈ s, p c = true) (ht : t.head?.all fun c => !p c) :
    (s ++ t).takeWhile p = s ∧ (s ++ t).dropWhile p = t := by
  rw [List.takeWhile_append_of_pos hs, List.dropWhile_append_of_pos hs]
  cases t with
  | nil => exact ⟨List.append_nil s, rfl⟩
  | cons c t =>
    have hc : ¬p c = true := by
      intro hc
      rw [List.head?_cons, Option.all_some, hc] at ht
      cases ht
    rw [List.takeWhile_cons_of_neg hc, List.dropWhile_cons_of_neg hc, List.append_nil]
    exact ⟨rfl, rfl⟩

theorem whitespace_of_identStart (hc : isIdentStart U c = true) : isWhitespace c = false := by
  by_contra h
  have hc' : isIdentStart U c = false := not_identStart_of_mem (by
    rw [Bool.not_eq_false, isWhitespace] at h
    simp only [Bool.or_eq_true, decide_eq_true_eq] at h
    simp only [List.mem_cons, List.not_mem_nil, or_false]
    tauto)
  rw [hc] at hc'
  cases hc'

theorem tokens_ident {id : String} (hid : IsIdent U id) (ht : Ends t) :
    tokens U (id.toList ++ t) = .ident id :: tokens U t := by
  obtain ⟨c, s, heq, hc, hs⟩ := hid
  obtain ⟨htake, hdrop⟩ := takeWhile_front hs ht.not_identRune
  rw [heq, List.cons_append, tokens_cons (whitespace_of_identStart hc), if_pos hc, htake, hdrop, ← heq,
    String.ofList_toList]

theorem tokens_rune (hc : c ∈ ['+', '-', '*', '/', '(', ')', ',']) (s : Text) :
    tokens U (c :: s) = .rune c :: tokens U s := by
  have hident : isIdentStart U c = false := not_identStart_of_mem (by
    simp only [List.mem_cons, List.not_mem_nil, or_false] at hc ⊢
    tauto)
  have hother : isWhitespace c = false ∧ startsNumber (c :: s) = false := by
    simp only [List.mem_cons, List.not_mem_nil, or_false] at hc
    rcases hc with rfl | rfl | rfl | rfl | rfl | rfl | rfl <;> exact ⟨by decide, rfl⟩
  rw [tokens_cons hother.1, if_neg (ne_true_of_eq_false hident), if_neg (ne_true_of_eq_false hother.2)]

/-! ### Numbers in decimal -/

structure Digits (s : Text) : Prop where
  ne_nil : s ≠ []
  digit : ∀ c ∈ s, c.isDigit = true

def IsFraction (s : Text) : Prop := s = [] ∨ ∃ ds, Digits ds ∧ s = '.' :: ds

def IsExponent (s : Text) : Prop := s = [] ∨ ∃ sgn ds, (sgn = '+' ∨ sgn = '-') ∧ Digits ds ∧ s = 'e' :: sgn :: ds

/-- Digits, perhaps with a fraction and an exponent. -/
def IsNumeral (s : Text) : Prop :=
  ∃ ds frac ex, Digits ds ∧ IsFraction frac ∧ IsExponent ex ∧ s = ds ++ (frac ++ ex)

/-- The end, or what may stand behind the digits of a number in decimal. -/
def Stops (s : Text) : Prop := s = [] ∨ ∃ c t, c ∈ ['.', 'e', ' ', ',', '(', ')'] ∧ s = c :: t

theorem Ends.stops (h : Ends s) : Stops s := by
  rcases h with rfl | ⟨c, t, hc, rfl⟩
  · exact Or.inl rfl
  · exact Or.inr ⟨c, t, List.mem_cons_of_mem _ (List.mem_cons_of_mem _ hc), rfl⟩

theorem IsExponent.stops (h : IsExponent s) (ht : Ends t) : Stops (s ++ t) := by
  rcases h with rfl | ⟨sgn, ds, -, -, rfl⟩
  · exact ht.stops
  · exact Or.inr ⟨'e', _, by decide, rfl⟩

theorem IsFraction.stops (h : IsFraction s) (ht : Stops t) : Stops (s ++ t) := by
  rcases h with rfl | ⟨ds, -, rfl⟩
  · exact ht
  · exact Or.inr ⟨'.', _, by decide, rfl⟩

theorem Digits.exists_cons (h : Digits s) : ∃ c t, s = c :: t ∧ c.isDigit = true := by
  match s, h with
  | [], h => exact absurd rfl h.ne_nil
  | c :: t, h => exact ⟨c, t, rfl, h.digit c List.mem_cons_self⟩

theorem Digits.digits_append (hs : Digits s) (ht : Stops t) : digits false (s ++ t) = t := by
  refine (takeWhile_front (p := fun c => (if false then isHex c else c.isDigit) || c = '_') ?_ ?_).2
  · intro c hc
    rw [if_neg Bool.false_ne_true, hs.digit c hc, Bool.true_or]
  · rcases ht with rfl | ⟨c, t, hc, rfl⟩
    · rfl
    · simp only [List.mem_cons, List.not_mem_nil, or_false] at hc
      rcases hc with rfl | rfl | rfl | rfl | rfl | rfl <;> rfl

/-- A number in decimal has no base in front. -/
theorem Digits.base_append (hs : Digits s) (ht : Stops t) : base (s ++ t) = (false, s ++ t) := by
  have hnot : ∀ d, d.isDigit = true ∨ d ∈ ['.', 'e', ' ', ',', '(', ')'] →
      ¬(d = 'x' ∨ d = 'X') ∧ ¬(d = 'o' ∨ d = 'O' ∨ d = 'b' ∨ d = 'B') := fun d hd => by
    constructor
    · rintro (rfl | rfl) <;> exact absurd hd (by decide)
    · rintro (rfl | rfl | rfl | rfl) <;> exact absurd hd (by decide)
  have hcons : ∀ c d u, d.isDigit = true ∨ d ∈ ['.', 'e', ' ', ',', '(', ')'] →
      base (c :: d :: u) = (false, c :: d :: u) := fun c d u hd => by
    rw [base, if_neg fun h => (hnot d hd).1 h.2, if_neg fun h => (hnot d hd).2 h.2]
  match s, hs with
  | [], hs => exact absurd rfl hs.ne_nil
  | [c], _ =>
    rcases ht with rfl | ⟨d, t, hd, rfl⟩
    · rfl
    · exact hcons c d t (Or.inr hd)
  | c :: d :: u, hs => exact hcons c d (u ++ t) (Or.inl (hs.digit d (by simp)))

theorem IsFraction.fraction_append (h : IsFraction s) (ht : Stops t) (hdot : t.head? ≠ some '.') :
    fraction false (s ++ t) = t := by
  rcases h with rfl | ⟨ds, hds, rfl⟩
  · cases t with
    | nil => rfl
    | cons c t => exact if_neg fun hc => hdot (congrArg some hc)
  · rw [List.cons_append, fraction, if_pos rfl]
    exact hds.digits_append ht

theorem IsExponent.head?_ne (h : IsExponent s) (ht : Ends t) : (s ++ t).head? ≠ some '.' := by
  rcases h with rfl | ⟨sgn, ds, -, -, rfl⟩
  · rcases ht with rfl | ⟨c, t, hc, rfl⟩
    · exact fun h => nomatch h
    · intro h
      rw [Option.some.inj h] at hc
      exact absurd hc (by decide)
  · exact fun h => absurd (Option.some.inj h) (by decide)

theorem IsExponent.exponent_append (h : IsExponent s) (ht : Ends t) : exponent (s ++ t) = t := by
  rcases h with rfl | ⟨sgn, ds, hsgn, hds, rfl⟩
  · rcases ht with rfl | ⟨c, t, hc, rfl⟩
    · rfl
    · rw [List.nil_append, exponent, if_neg]
      rintro (rfl | rfl | rfl | rfl) <;> exact absurd hc (by decide)
  · rw [List.cons_append, List.cons_append, exponent, if_pos (Or.inl rfl), sign, if_pos hsgn]
    exact hds.digits_append ht.stops

theorem IsNumeral.scanNumber_append (h : IsNumeral s) (ht : Ends t) : scanNumber (s ++ t) = t := by
  obtain ⟨ds, frac, ex, hds, hfrac, hex, rfl⟩ := h
  have hstop := hex.stops ht
  have hstops := hfrac.stops hstop
  rw [List.append_assoc, List.append_assoc, scanNumber, hds.base_append hstops]
  dsimp only
  rw [hds.digits_append hstops, hfrac.fraction_append hstop (hex.head?_ne ht), hex.exponent_append ht]

theorem IsNumeral.exists_cons (h : IsNumeral s) : ∃ c t, s = c :: t ∧ c.isDigit = true := by
  obtain ⟨ds, frac, ex, hds, -, -, rfl⟩ := h
  obtain ⟨c, t, rfl, hc⟩ := hds.exists_cons
  exact ⟨c, t ++ (frac ++ ex), rfl, hc⟩

theorem isDigit_cases (hc : c.isDigit = true) :
    c.toNat < 128 ∧ c.isAlpha = false ∧ c ≠ '_' ∧ isWhitespace c = false ∧ c ≠ '\uFEFF' := by
  have hrange : 48 ≤ c.toNat ∧ c.toNat ≤ 57 := Char.isDigit_iff_toNat.mp hc
  have halpha : ¬c.isAlpha = true := by
    intro h
    rcases (Bool.or_eq_true _ _).mp h with h | h
    · have hlo : 'A'.toNat ≤ c.toNat := UInt32.le_iff_toNat_le.mp (of_decide_eq_true h).1
      exact absurd hrange.2 (not_le.mpr (Nat.lt_of_lt_of_le (by decide) hlo))
    · have hlo : 'a'.toNat ≤ c.toNat :=
        UInt32.le_iff_toNat_le.mp (of_decide_eq_true ((Bool.and_eq_true _ _).mp h).1)
      exact absurd hrange.2 (not_le.mpr (Nat.lt_of_lt_of_le (by decide) hlo))
  have hne : ∀ d : Char, d.toNat < 48 ∨ 57 < d.toNat → c ≠ d := by
    rintro d hd rfl
    omega
  refine ⟨by omega, Bool.eq_false_iff.mpr halpha, hne '_' (by decide), ?_, hne _ (by decide)⟩
  rw [isWhitespace, decide_eq_false (hne '\t' (by decide)), decide_eq_false (hne '\n' (by decide)),
    decide_eq_false (hne '\r' (by decide)), decide_eq_false (hne ' ' (by decide))]
  rfl

/-- A number in decimal is one token. -/
theorem tokens_numeral {text : String} (h : IsNumeral text.toList) (ht : Ends t) :
    tokens U (text.toList ++ t) = .number text :: tokens U t := by
  have hrest := h.scanNumber_append ht
  obtain ⟨c, s, heq, hc⟩ := h.exists_cons
  obtain ⟨hascii, halpha, hne, hspace, -⟩ := isDigit_cases hc
  have hstart : startsNumber (c :: (s ++ t)) = true := by
    rw [startsNumber, hc, Bool.true_or]
  rw [heq, List.cons_append] at hrest ⊢
  rw [tokens_cons hspace, if_neg (ne_true_of_eq_false (not_identStart hascii halpha hne)), if_pos hstart, hrest,
    List.length_append]
  have htake : (c :: (s ++ t)).take (s.length + t.length + 1 - t.length) = text.toList := by
    rw [heq, show s.length + t.length + 1 - t.length = (c :: s).length by rw [List.length_cons]; omega,
      ← List.cons_append, List.take_left]
  rw [htake, String.ofList_toList]

end Csapp.Eval14
