import Csapp.Lib.Text
import Mathlib.Data.List.Lex
import Mathlib.Data.List.TakeWhile
import Mathlib.Order.Compare

/-!
# Lib.CString — C strings as lists of characters

The characters of a C string up to its end, without the `\0`.  `scanWord` and `scanInt` are the `%s` and
`%d` of `sscanf`, and `fgets` reads a line.  For code that runs to the end of a string, a `CStr` is its bytes and
`CStr.cells` what stands in memory, the `\0` included.
-/

namespace Csapp.Lib

/-- `isspace` in the C locale. -/
def isspace (c : Char) : Bool := c = ' ' || ('\t' ≤ c && c ≤ '\r')

/-- What stands before and after the first `c`. -/
def strchr (c : Char) : Text → Option (Text × Text)
  | [] => none
  | d :: s => if d = c then some ([], s) else (strchr c s).map fun p => (d :: p.1, p.2)

theorem strchr_eq_some {c : Char} {s u v : Text} (h : strchr c s = some (u, v)) :
    s = u ++ c :: v ∧ c ∉ u := by
  induction s generalizing u with
  | nil => cases h
  | cons d s ih =>
    rw [strchr] at h
    split_ifs at h with hd
    · obtain ⟨rfl, rfl⟩ := Prod.mk.inj (Option.some.inj h)
      exact ⟨by rw [hd, List.nil_append], List.not_mem_nil⟩
    · obtain ⟨⟨u', v'⟩, h', he⟩ := Option.map_eq_some_iff.mp h
      obtain ⟨rfl, rfl⟩ := Prod.mk.inj he
      obtain ⟨h1, h2⟩ := ih h'
      refine ⟨by rw [h1, List.cons_append], fun hmem => ?_⟩
      rcases List.mem_cons.mp hmem with rfl | hmem
      · exact hd rfl
      · exact h2 hmem

theorem strchr_append {c : Char} {u : Text} (h : c ∉ u) (v : Text) : strchr c (u ++ c :: v) = some (u, v) := by
  induction u with
  | nil => rw [List.nil_append, strchr, if_pos rfl]
  | cons d u ih =>
    obtain ⟨hd, hu⟩ := not_or.mp (List.mem_cons.not.mp h)
    rw [List.cons_append, strchr, if_neg (Ne.symm hd), ih hu, Option.map_some]

theorem strchr_eq_none {c : Char} {u : Text} (h : c ∉ u) : strchr c u = none := by
  induction u with
  | nil => rfl
  | cons d u ih =>
    obtain ⟨hd, hu⟩ := not_or.mp (List.mem_cons.not.mp h)
    rw [strchr, if_neg (Ne.symm hd), ih hu, Option.map_none]

/-- `fgets` with a buffer of `n` characters: the string in the buffer, and what is left of the input. -/
def fgets (n : ℕ) (input : Text) : Option (Text × Text) :=
  if input = [] then none else
  let len := match strchr '\n' (input.take (n - 1)) with
    | some (line, _) => line.length + 1
    | none => n - 1
  some ((input.take len).takeWhile (· ≠ '\x00'), input.drop len)

/-- A line that fits is read with its newline. -/
theorem fgets_newline {n : ℕ} {u : Text} (hnl : '\n' ∉ u) (hnul : '\x00' ∉ u) (hlen : u.length + 1 < n) (rest : Text) :
    fgets n (u ++ '\n' :: rest) = some (u ++ ['\n'], rest) := by
  have htake : (u ++ '\n' :: rest).take (n - 1) = u ++ '\n' :: rest.take (n - 1 - u.length - 1) := by
    rw [List.take_append, List.take_of_length_le (by omega), ← List.take_succ_cons]
    congr 2
    omega
  have hsplit : u ++ '\n' :: rest = (u ++ ['\n']) ++ rest := by
    rw [List.append_assoc, List.singleton_append]
  have hall : ∀ c ∈ u ++ ['\n'], decide (c ≠ '\x00') = true := by
    intro c hc
    refine decide_eq_true ?_
    rintro rfl
    rcases List.mem_append.mp hc with hc | hc
    · exact hnul hc
    · exact absurd (List.mem_singleton.mp hc) (by decide)
  have hfirst : ((u ++ ['\n']) ++ rest).take (u.length + 1) = u ++ ['\n'] := List.take_left' (by simp)
  have hrest : ((u ++ ['\n']) ++ rest).drop (u.length + 1) = rest := List.drop_left' (by simp)
  rw [fgets, if_neg (by simp), htake, strchr_append hnl]
  simp only [hsplit, hfirst, hrest, List.takeWhile_eq_self_iff.mpr hall]

/-- Without a newline, it is read up to the end of the input or of the buffer. -/
theorem fgets_end {n : ℕ} {u rest : Text} (hne : u ≠ []) (hnl : '\n' ∉ u) (hnul : '\x00' ∉ u) (hlen : u.length < n)
    (hend : rest = [] ∨ u.length + 1 = n) : fgets n (u ++ rest) = some (u, rest) := by
  have htake : (u ++ rest).take (n - 1) = u ∧ (u ++ rest).drop (n - 1) = rest := by
    rcases hend with rfl | hend
    · rw [List.append_nil]
      exact ⟨List.take_of_length_le (by omega), List.drop_eq_nil_of_le (by omega)⟩
    · exact ⟨List.take_left' (by omega), List.drop_left' (by omega)⟩
  have hall : ∀ c ∈ u, decide (c ≠ '\x00') = true := fun c hc => decide_eq_true fun he => hnul (he ▸ hc)
  rw [fgets, if_neg (fun h => hne (List.append_eq_nil_iff.mp h).1), htake.1, strchr_eq_none hnl]
  simp only [htake.1, htake.2, List.takeWhile_eq_self_iff.mpr hall]

/-- `%s`: white space is skipped; the word, and what follows it. -/
def scanWord (s : Text) : Option (Text × Text) :=
  let s := s.dropWhile isspace
  if s = [] then none else some (s.takeWhile fun c => !isspace c, s.dropWhile fun c => !isspace c)

/-- The value of the digits in front. -/
def scanDigits (s : Text) : Option ℕ :=
  let ds := s.takeWhile Char.isDigit
  if ds = [] then none else some (Nat.ofDigitChars 10 ds 0)

/-- `%d`: white space is skipped; the number is read as a `long`, which is cut off at its bounds, and
stored as an `int`. -/
def scanInt (s : Text) : Option Int32 :=
  match s.dropWhile isspace with
  | '-' :: s => (scanDigits s).map fun n => Int32.ofInt (max (-2 ^ 63) (-n))
  | '+' :: s => (scanDigits s).map fun n => Int32.ofInt (min (2 ^ 63 - 1) n)
  | s => (scanDigits s).map fun n => Int32.ofInt (min (2 ^ 63 - 1) n)

/-! ## In memory -/

/-- A string that ends at its first `\0`. -/
structure CStr where
  bytes : List UInt8
  noNul : 0 ∉ bytes

namespace CStr

/-- The bytes of the object, up to its end. -/
def cells (s : CStr) : List UInt8 := s.bytes ++ [0]

/-- The cells are the terminator alone, or a byte that is not `\0` and the cells of a string. -/
theorem cells_cases (s : CStr) :
    s.bytes = [] ∧ s.cells = [0] ∨
      ∃ (c : UInt8) (t : CStr), c ≠ 0 ∧ s.bytes = c :: t.bytes ∧ s.cells = c :: t.cells := by
  obtain ⟨bytes, hs⟩ := s
  cases bytes with
  | nil => exact Or.inl ⟨rfl, rfl⟩
  | cons c bytes =>
    obtain ⟨hc, hs⟩ := not_or.mp (List.mem_cons.not.mp hs)
    exact Or.inr ⟨c, ⟨bytes, hs⟩, Ne.symm hc, rfl, rfl⟩

/-- Induction along a string, the way a pointer runs through it. -/
@[elab_as_elim]
theorem inductionOn {motive : CStr → Prop} (s : CStr)
    (nil : ∀ s : CStr, s.bytes = [] → s.cells = [0] → motive s)
    (cons : ∀ (s : CStr) (c : UInt8) (t : CStr), c ≠ 0 → s.bytes = c :: t.bytes → s.cells = c :: t.cells →
      motive t → motive s) : motive s := by
  obtain ⟨bytes, hs⟩ := s
  induction bytes with
  | nil => exact nil _ rfl rfl
  | cons c bytes ih =>
    obtain ⟨hc, ht⟩ := not_or.mp (List.mem_cons.not.mp hs)
    exact cons _ c ⟨bytes, ht⟩ (Ne.symm hc) rfl rfl (ih ht)

/-- The first `n` characters, as numbers. -/
def take (n : ℕ) (s : CStr) : List ℕ := (s.bytes.take n).map UInt8.toNat

end CStr

/-- `strncmp`, as the sign of its result: up to the first difference, an end or `n` characters. -/
def strncmp : ℕ → List UInt8 → List UInt8 → Ordering
  | 0, _, _ => .eq
  | n + 1, a :: s, b :: t =>
    if a = b then if a = 0 then .eq else strncmp n s t
    else if a < b then .lt
    else .gt
  | _ + 1, _, _ => .eq

/-- It is the lexicographic order of the first characters. -/
theorem strncmp_compares (n : ℕ) (s t : CStr) : (strncmp n s.cells t.cells).Compares (s.take n) (t.take n) := by
  induction n generalizing s t with
  | zero => exact rfl
  | succ n ih =>
    rcases s.cells_cases with ⟨hsb, hsc⟩ | ⟨a, s', ha, hsb, hsc⟩ <;>
      rcases t.cells_cases with ⟨htb, htc⟩ | ⟨b, t', hb, htb, htc⟩ <;>
        rw [CStr.take, CStr.take, hsb, htb, hsc, htc, strncmp]
    · rw [if_pos rfl, if_pos rfl]
      exact rfl
    · have hlt : (0 : UInt8) < b := UInt8.pos_iff_ne_zero.mpr hb
      rw [if_neg (Ne.symm hb), if_pos hlt]
      exact List.nil_lt_cons _ _
    · rw [if_neg ha, if_neg UInt8.not_lt_zero]
      exact List.nil_lt_cons _ _
    · rw [List.take_succ_cons, List.take_succ_cons, List.map_cons, List.map_cons]
      by_cases he : a = b
      · subst he
        rw [if_pos rfl, if_neg ha]
        have hrest := ih s' t'
        cases hc : strncmp n s'.cells t'.cells with
        | lt =>
          rw [hc] at hrest
          exact List.cons_lt_cons_iff.mpr (Or.inr ⟨rfl, hrest⟩)
        | eq =>
          rw [hc] at hrest
          exact congrArg (a.toNat :: ·) hrest
        | gt =>
          rw [hc] at hrest
          exact List.cons_lt_cons_iff.mpr (Or.inr ⟨rfl, hrest⟩)
      · rw [if_neg he]
        by_cases hlt : a < b
        · rw [if_pos hlt]
          exact List.cons_lt_cons_iff.mpr (Or.inl (UInt8.lt_iff_toNat_lt.mp hlt))
        · rw [if_neg hlt]
          have hgt : b < a := UInt8.lt_of_le_of_ne (UInt8.not_lt.mp hlt) (Ne.symm he)
          exact List.cons_lt_cons_iff.mpr (Or.inl (UInt8.lt_iff_toNat_lt.mp hgt))

end Csapp.Lib
