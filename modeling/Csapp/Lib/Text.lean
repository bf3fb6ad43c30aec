import Mathlib.Data.Nat.Notation
import Mathlib.Algebra.Ring.Nat
import Mathlib.Algebra.Ring.Int.Defs

/-!
# Lib.Text — text as lists of characters: lines, words and decimal numbers

The string operations of Go that line-oriented tools use.  `strings.Split` at one character is
`List.splitOn`; `trimSpace` and `atoi` are `strings.TrimSpace` and `strconv.Atoi`, and `itoa` is the `%d`
of a number that is not negative.  Lines that are trimmed come back from the text they are joined into
(`splitOn_trimSpace_unlines`), and numbers below `2 ^ 63` from their digits (`atoi_itoa`).
-/

namespace Csapp.Lib

abbrev Text := List Char

/-! ## White space -/

/-- `unicode.IsSpace`. -/
def isSpace (c : Char) : Bool :=
  c.toNat ∈ [0x09, 0x0a, 0x0b, 0x0c, 0x0d, 0x20, 0x85, 0xa0, 0x1680, 0x2000, 0x2001, 0x2002, 0x2003,
    0x2004, 0x2005, 0x2006, 0x2007, 0x2008, 0x2009, 0x200a, 0x2028, 0x2029, 0x202f, 0x205f, 0x3000]

def trimSpace (s : Text) : Text :=
  ((s.dropWhile isSpace).reverse.dropWhile isSpace).reverse

/-- Not empty, with no space at either end. -/
structure Trimmed (s : Text) : Prop where
  head : ∃ c t, s = c :: t ∧ isSpace c = false
  last : ∃ c t, s = t ++ [c] ∧ isSpace c = false

theorem dropWhile_trimmed {s : Text} (h : Trimmed s) (t : Text) :
    (s ++ t).dropWhile isSpace = s ++ t := by
  obtain ⟨c, u, rfl, hc⟩ := h.head
  rw [List.cons_append, List.dropWhile_cons_of_neg (by simp [hc])]

/-- Spaces after a trimmed text are cut off, and nothing else. -/
theorem trimSpace_append {s t : Text} (h : Trimmed s) (ht : ∀ c ∈ t, isSpace c = true) :
    trimSpace (s ++ t) = s := by
  obtain ⟨c, u, hs, hc⟩ := h.last
  have hrev : (s ++ t).reverse.dropWhile isSpace = s.reverse := by
    rw [List.reverse_append, List.dropWhile_append_of_pos (by simpa using ht), hs,
      List.reverse_append, List.reverse_singleton, List.singleton_append,
      List.dropWhile_cons_of_neg (by simp [hc])]
  rw [trimSpace, dropWhile_trimmed h, hrev, List.reverse_reverse]

theorem trimSpace_of_trimmed {s : Text} (h : Trimmed s) : trimSpace s = s := by
  simpa using trimSpace_append (t := []) h (by simp)

theorem Trimmed.append {s u : Text} (hs : Trimmed s) (t : Text) (hu : Trimmed u) :
    Trimmed (s ++ t ++ u) := by
  obtain ⟨c, s', rfl, hc⟩ := hs.head
  obtain ⟨d, u', rfl, hd⟩ := hu.last
  exact ⟨⟨c, s' ++ t ++ (u' ++ [d]), by simp, hc⟩, ⟨d, c :: s' ++ t ++ u', by simp, hd⟩⟩

/-! ## Lines -/

/-- Every line with its end. -/
def unlines (ls : List Text) : Text := ls.flatMap (· ++ ['\n'])

@[simp] theorem unlines_nil : unlines [] = [] := rfl

@[simp] theorem unlines_cons (l : Text) (ls : List Text) : unlines (l :: ls) = l ++ '\n' :: unlines ls := by
  simp [unlines]

@[simp] theorem unlines_append (ls ls' : List Text) : unlines (ls ++ ls') = unlines ls ++ unlines ls' :=
  List.flatMap_append

/-- A trimmed text of one line. -/
structure IsLine (l : Text) : Prop extends Trimmed l where
  noNewline : '\n' ∉ l

theorem trimmed_intercalate {ls : List Text} (hne : ls ≠ []) (h : ∀ l ∈ ls, IsLine l) :
    Trimmed (['\n'].intercalate ls) := by
  induction ls with
  | nil => exact absurd rfl hne
  | cons l ls ih =>
    have hl : Trimmed l := (h l List.mem_cons_self).toTrimmed
    cases ls with
    | nil => simpa using hl
    | cons l' ls =>
      rw [List.intercalate_cons_cons]
      exact hl.append ['\n'] (ih (by simp) fun k hk => h k (List.mem_cons_of_mem _ hk))

theorem unlines_eq_intercalate {ls : List Text} (hne : ls ≠ []) :
    unlines ls = ['\n'].intercalate ls ++ ['\n'] := by
  induction ls with
  | nil => exact absurd rfl hne
  | cons l ls ih =>
    cases ls with
    | nil => simp
    | cons l' ls => rw [unlines_cons, ih (by simp), List.intercalate_cons_cons]; simp

/-- **The lines of a text come back**, once the end of the last one has been trimmed off. -/
theorem splitOn_trimSpace_unlines {ls : List Text} (hne : ls ≠ []) (h : ∀ l ∈ ls, IsLine l) :
    (trimSpace (unlines ls)).splitOn '\n' = ls := by
  rw [unlines_eq_intercalate hne, trimSpace_append (trimmed_intercalate hne h) (List.forall_mem_singleton.mpr rfl)]
  exact List.splitOn_intercalate '\n' (fun l hl => (h l hl).noNewline) hne

/-! ## Words -/

structure IsWord (w : Text) : Prop where
  ne_nil : w ≠ []
  noSpace : ∀ c ∈ w, isSpace c = false

theorem isWord_iff {w : Text} : (w ≠ [] ∧ w.any isSpace = false) ↔ IsWord w := by
  simp only [List.any_eq_false, Bool.not_eq_true]
  exact ⟨fun h => ⟨h.1, h.2⟩, fun h => ⟨h.ne_nil, h.noSpace⟩⟩

instance : DecidablePred IsWord := fun _ => decidable_of_iff _ isWord_iff

theorem IsWord.isLine {w : Text} (h : IsWord w) : IsLine w := by
  refine ⟨⟨?_, ?_⟩, fun hn => absurd (h.noSpace _ hn) (by decide)⟩
  · obtain ⟨c, t, rfl⟩ := List.exists_cons_of_ne_nil h.ne_nil
    exact ⟨c, t, rfl, h.noSpace c List.mem_cons_self⟩
  · exact ⟨w.getLast h.ne_nil, w.dropLast, (List.dropLast_concat_getLast h.ne_nil).symm,
      h.noSpace _ (List.getLast_mem h.ne_nil)⟩

theorem IsWord.splitOn {w : Text} (h : IsWord w) : (trimSpace w).splitOn ' ' = [w] := by
  rw [trimSpace_of_trimmed h.isLine.toTrimmed]
  exact List.splitOn_eq_singleton fun hs => absurd (h.noSpace _ hs) (by decide)

/-- Two words make a line. -/
theorem isLine_two {w v : Text} (hw : IsWord w) (hv : IsWord v) : IsLine (w ++ ' ' :: v) := by
  refine ⟨?_, ?_⟩
  · simpa using hw.isLine.toTrimmed.append [' '] hv.isLine.toTrimmed
  · simp only [List.mem_append, List.mem_cons, not_or]
    exact ⟨hw.isLine.noNewline, by decide, hv.isLine.noNewline⟩

/-- **The two words of a line come back.** -/
theorem splitOn_two {w v : Text} (hw : IsWord w) (hv : IsWord v) :
    (trimSpace (w ++ ' ' :: v)).splitOn ' ' = [w, v] := by
  have hsp : ∀ {u : Text}, IsWord u → ' ' ∉ u := fun hu hs => absurd (hu.noSpace _ hs) (by decide)
  rw [trimSpace_of_trimmed (isLine_two hw hv).toTrimmed,
    List.splitOn_append_cons_self_of_not_mem (hsp hw), List.splitOn_eq_singleton (hsp hv)]

/-! ## Decimal numbers -/

def itoa (n : ℕ) : Text := Nat.toDigits 10 n

/-- The errors `ErrSyntax` and `ErrRange`. -/
inductive NumError
  | invalidSyntax
  | outOfRange
  deriving DecidableEq

/-- The loop of `ParseUint` over the digits, from the value `n` on. -/
def parseUint (n : ℕ) : Text → Except NumError ℕ
  | [] => .ok n
  | c :: s =>
    if c.isDigit = false then .error .invalidSyntax
    else if 2 ^ 64 ≤ n * 10 + (c.toNat - 48) then .error .outOfRange
    else parseUint (n * 10 + (c.toNat - 48)) s

/-- The digits after the sign: an empty text is no number. -/
def parseDigits (s : Text) : Except NumError ℕ :=
  if s = [] then .error .invalidSyntax else parseUint 0 s

def atoi : Text → Except NumError ℤ
  | '-' :: s => do
    let n ← parseDigits s
    if 2 ^ 63 < n then .error .outOfRange else .ok (-(n : ℤ))
  | '+' :: s => do
    let n ← parseDigits s
    if 2 ^ 63 ≤ n then .error .outOfRange else .ok n
  | s => do
    let n ← parseDigits s
    if 2 ^ 63 ≤ n then .error .outOfRange else .ok n

theorem itoa_ne_nil (n : ℕ) : itoa n ≠ [] := Nat.toDigits_ne_nil

theorem isDigit_of_mem_itoa {n : ℕ} {c : Char} (h : c ∈ itoa n) : c.isDigit = true :=
  Nat.isDigit_of_mem_toDigits (by decide) (by decide) h

theorem isSpace_of_isDigit {c : Char} (h : c.isDigit = true) : isSpace c = false := by
  obtain ⟨h₁, h₂⟩ : 48 ≤ c.toNat ∧ c.toNat ≤ 57 := by simpa [Char.isDigit, UInt32.le_iff_toNat_le] using h
  simp only [isSpace, List.mem_cons, List.not_mem_nil, or_false, decide_eq_false_iff_not]
  omega

theorem isWord_itoa (n : ℕ) : IsWord (itoa n) :=
  ⟨itoa_ne_nil n, fun _ h => isSpace_of_isDigit (isDigit_of_mem_itoa h)⟩

theorem le_ofDigitChars (s : Text) (n : ℕ) : n ≤ Nat.ofDigitChars 10 s n := by
  induction s generalizing n with
  | nil => simp
  | cons c s ih =>
    rw [Nat.ofDigitChars_cons]
    have := ih (10 * n + (c.toNat - '0'.toNat))
    omega

theorem parseUint_of_digits {s : Text} {n : ℕ} (hd : ∀ c ∈ s, c.isDigit = true)
    (hlt : Nat.ofDigitChars 10 s n < 2 ^ 64) : parseUint n s = .ok (Nat.ofDigitChars 10 s n) := by
  induction s generalizing n with
  | nil => simp [parseUint]
  | cons c s ih =>
    have hc : c.isDigit = true := hd c List.mem_cons_self
    have heq : n * 10 + (c.toNat - 48) = 10 * n + (c.toNat - '0'.toNat) := by
      rw [Nat.mul_comm]
      rfl
    rw [Nat.ofDigitChars_cons] at hlt ⊢
    have hle := le_ofDigitChars s (10 * n + (c.toNat - '0'.toNat))
    rw [parseUint, heq, if_neg (by simp [hc]), if_neg (by omega)]
    exact ih (fun d h => hd d (List.mem_cons_of_mem _ h)) hlt

theorem parseUint_of_large {s : Text} {n : ℕ} (hd : ∀ c ∈ s, c.isDigit = true) (hn : n < 2 ^ 64)
    (h : 2 ^ 64 ≤ Nat.ofDigitChars 10 s n) : parseUint n s = .error .outOfRange := by
  induction s generalizing n with
  | nil =>
    rw [Nat.ofDigitChars_nil] at h
    omega
  | cons c s ih =>
    have hc : c.isDigit = true := hd c List.mem_cons_self
    have heq : n * 10 + (c.toNat - 48) = 10 * n + (c.toNat - '0'.toNat) := by
      rw [Nat.mul_comm]
      rfl
    rw [Nat.ofDigitChars_cons] at h
    rw [parseUint, heq, if_neg (by simp [hc])]
    split
    · rfl
    · next hlt => exact ih (fun d hd' => hd d (List.mem_cons_of_mem _ hd')) (Nat.not_le.mp hlt) h

theorem ofDigitChars_itoa (n : ℕ) : Nat.ofDigitChars 10 (itoa n) 0 = n := Nat.ofDigitChars_ten_toDigits

/-- Digits have no sign in front. -/
theorem atoi_eq_parseUint {s : Text} (hne : s ≠ []) (hd : ∀ c ∈ s, c.isDigit = true) : atoi s =
    (parseUint 0 s >>= fun k => if 2 ^ 63 ≤ k then .error .outOfRange else .ok (k : ℤ)) := by
  have hparse : parseDigits s = parseUint 0 s := if_neg hne
  unfold atoi
  split
  · exact absurd (hd _ List.mem_cons_self) (by decide)
  · exact absurd (hd _ List.mem_cons_self) (by decide)
  · rw [hparse]

theorem atoi_of_digits {s : Text} (hne : s ≠ []) (hd : ∀ c ∈ s, c.isDigit = true)
    (h : Nat.ofDigitChars 10 s 0 < 2 ^ 63) : atoi s = .ok (Nat.ofDigitChars 10 s 0 : ℤ) := by
  rw [atoi_eq_parseUint hne hd, parseUint_of_digits hd (by omega)]
  exact if_neg (Nat.not_le.mpr h)

/-- **The number comes back from its digits.** -/
theorem atoi_itoa {n : ℕ} (h : n < 2 ^ 63) : atoi (itoa n) = .ok (n : ℤ) := by
  rw [atoi_of_digits (itoa_ne_nil n) (fun c hc => isDigit_of_mem_itoa hc) (by rwa [ofDigitChars_itoa]),
    ofDigitChars_itoa]

/-- A number that is no `int` is out of range. -/
theorem atoi_itoa_of_le {n : ℕ} (h : 2 ^ 63 ≤ n) : atoi (itoa n) = .error .outOfRange := by
  rw [atoi_eq_parseUint (itoa_ne_nil n) fun c hc => isDigit_of_mem_itoa hc]
  by_cases hlt : n < 2 ^ 64
  · rw [← ofDigitChars_itoa n] at hlt
    rw [parseUint_of_digits (fun c hc => isDigit_of_mem_itoa hc) hlt, ofDigitChars_itoa]
    exact if_pos h
  · rw [← ofDigitChars_itoa n] at hlt
    rw [parseUint_of_large (fun c hc => isDigit_of_mem_itoa hc) (by decide) (Nat.not_lt.mp hlt)]
    rfl

end Csapp.Lib
