import Csapp.Lib.MaximalRun
import Csapp.Parsing.Scanner
import Mathlib.Data.List.Forall2

/-!
# Parsing.Words — the scanner finds the words of its source

A word is a maximal run of letters, digits and underscores.  The scanner stands behind a number of words and never
inside of one (`Scanning`): a round skips a character, or reads a word to its end.
-/

namespace Csapp.Parsing

open Csapp.Lib

/-- The token is that of the word from `i` to before `j`. -/
structure Token.IsWord (source : List Char) (i j : ℕ) (tk : Token) : Prop where
  lexeme : tk.lexeme = segment source i j
  line : tk.line = 1 + (source.take i).count '\n'
  literal : tk.literal = .nil
  and_iff : tk.typ = .and ↔ tk.lexeme = "AND".toList
  or_iff : tk.typ = .or ↔ tk.lexeme = "OR".toList
  not_iff : tk.typ = .not ↔ tk.lexeme = "NOT".toList
  term_iff : tk.typ = .term ↔
    tk.lexeme ≠ "AND".toList ∧ tk.lexeme ≠ "OR".toList ∧ tk.lexeme ≠ "NOT".toList

/-- The scanner stands behind the words at `runs`. -/
structure Scanner.Scanning (source : List Char) (runs : List (ℕ × ℕ)) (s : Scanner) : Prop where
  src_eq : s.src = source
  curr_le : s.curr ≤ source.length
  line : s.line = 1 + (source.take s.curr).count '\n'
  upTo : RunsUpTo isAlphaNumeric source s.curr runs
  tokens : List.Forall₂ (fun r tk => Token.IsWord source r.1 r.2 tk) runs s.tokens

namespace Scanner

variable {source : List Char} {runs : List (ℕ × ℕ)} {s : Scanner} {x : Char} {j : ℕ}

theorem advance_eq (hx : s.src[s.curr]? = some x) : s.advance = some (x, { s with curr := s.curr + 1 }) := by
  rw [Scanner.advance, hx, Option.map_some]

/-- Behind the end stands no word. -/
theorem peek_eq (s : Scanner) : isAlphaNumeric s.peek = s.src[s.curr]?.any isAlphaNumeric := by
  rw [peek, isAtEnd]
  by_cases h : s.curr < s.src.length
  · rw [decide_eq_false (Nat.not_le.mpr h), if_neg Bool.false_ne_true, List.getD_eq_getElem?_getD,
      List.getElem?_eq_getElem h]
    rfl
  · rw [decide_eq_true (Nat.le_of_not_lt h), if_pos rfl, List.getElem?_eq_none (Nat.le_of_not_lt h)]
    decide

/-- A word is read to its end. -/
theorem term_eq (hrun : IsRun isAlphaNumeric s.src s.start j) (hcurr : s.start < s.curr) (hle : s.curr ≤ j) :
    s.term = some ({ s with curr := j }.addToken ((keywords (segment s.src s.start j)).getD .term) .nil) := by
  obtain ⟨s₁, h1, ⟨h2, h3, h4⟩, h5⟩ := whileLoop_inv (fun s => isAlphaNumeric s.peek)
    (fun s => s.advance.map Prod.snd)
    (fun s₁ => s₁ = { s with curr := s₁.curr } ∧ s.curr ≤ s₁.curr ∧ s₁.curr ≤ j) (fun s₁ => j - s₁.curr)
    (by
      rintro s₁ ⟨hs, hge, hj⟩ hpeek
      have hsrc : s₁.src = s.src := by rw [hs]
      rw [peek_eq, hsrc] at hpeek
      obtain ⟨x, hx, -⟩ := any_eq_true_iff.mp hpeek
      have hlt : s₁.curr < j := by
        rcases Nat.lt_or_eq_of_le hj with hlt | heq
        · exact hlt
        · rw [heq, hrun.right] at hpeek
          cases hpeek
      refine ⟨{ s₁ with curr := s₁.curr + 1 }, ?_, ⟨?_, ?_, ?_⟩, ?_⟩
      · rw [advance_eq (hsrc ▸ hx), Option.map_some]
      · conv_lhs => rw [hs]
      · exact Nat.le_succ_of_le hge
      · exact hlt
      · dsimp only
        omega)
    (s.src.length + 1) s ⟨rfl, Nat.le_refl _, hle⟩ (by
      have hlen := hrun.le
      omega)
  have hend : s₁.curr = j := by
    have hsrc : s₁.src = s.src := by rw [h2]
    rw [peek_eq, hsrc] at h5
    by_contra hne
    have hin := hrun.all s₁.curr (by omega) (by omega)
    rw [h5] at hin
    cases hin
  rw [hend] at h2
  have htext : s₁.text = segment s.src s.start j := by
    rw [h2]
    rfl
  rw [Scanner.term, h1, Option.bind_eq_bind, Option.bind_some, htext, h2]
  cases keywords (segment s.src s.start j) with
  | none => rfl
  | some typ => rfl

theorem getD_keywords_eq_iff (text : Text) :
    (((keywords text).getD .term = .and ↔ text = "AND".toList) ∧
      ((keywords text).getD .term = .or ↔ text = "OR".toList)) ∧
    ((keywords text).getD .term = .not ↔ text = "NOT".toList) ∧
      ((keywords text).getD .term = .term ↔
        text ≠ "AND".toList ∧ text ≠ "OR".toList ∧ text ≠ "NOT".toList) := by
  unfold keywords
  split_ifs with h1 h2 h3
  · subst h1
    decide
  · subst h2
    decide
  · subst h3
    decide
  · refine ⟨⟨iff_of_false ?_ h1, iff_of_false ?_ h2⟩, iff_of_false ?_ h3, iff_of_true rfl ⟨h1, h2, h3⟩⟩
    all_goals
      intro h
      cases h

/-- A character that belongs to no word is skipped. -/
theorem Scanning.skip (h : Scanning source runs s) (hx : source[s.curr]? = some x)
    (hp : isAlphaNumeric x = false) :
    ∃ s', { s with start := s.curr }.scanToken = some s' ∧ Scanning source runs s' ∧ s'.curr = s.curr + 1 := by
  obtain ⟨hlt, -⟩ := List.getElem?_eq_some_iff.mp hx
  have hupTo : RunsUpTo isAlphaNumeric source (s.curr + 1) runs := h.upTo.skip (by rw [hx]; exact hp)
  have hcount : (source.take (s.curr + 1)).count '\n' = (source.take s.curr).count '\n' + [x].count '\n' := by
    rw [List.take_add_one, hx, List.count_append]
    rfl
  have hadvance : ({ s with start := s.curr } : Scanner).advance =
      some (x, { s with start := s.curr, curr := s.curr + 1 }) := advance_eq (by
    rw [← h.src_eq] at hx
    exact hx)
  rw [Scanner.scanToken, hadvance, Option.bind_eq_bind, Option.bind_some]
  dsimp only
  by_cases hspace : x = ' ' ∨ x = '\r' ∨ x = '\t'
  · refine ⟨_, if_pos hspace, ⟨h.src_eq, hlt, ?_, hupTo, h.tokens⟩, rfl⟩
    have hzero : [x].count '\n' = 0 := by
      rcases hspace with rfl | rfl | rfl <;> rfl
    show s.line = _
    rw [hcount, hzero, h.line, Nat.add_zero]
  · rw [if_neg hspace]
    by_cases hline : x = '\n'
    · refine ⟨_, if_pos hline, ⟨h.src_eq, hlt, ?_, hupTo, h.tokens⟩, rfl⟩
      show s.line + 1 = _
      rw [hcount, hline, h.line, Nat.add_assoc]
      rfl
    · have halpha : isAlpha x = false := by
        rw [isAlphaNumeric, Bool.or_eq_false_iff] at hp
        exact hp.1
      rw [if_neg hline, halpha, if_neg Bool.false_ne_true]
      refine ⟨_, rfl, ⟨h.src_eq, hlt, ?_, hupTo, h.tokens⟩, rfl⟩
      have hzero : [x].count '\n' = 0 := List.count_eq_zero.mpr fun hmem => hline (List.mem_singleton.mp hmem).symm
      show s.line = 1 + (source.take (s.curr + 1)).count '\n'
      rw [hcount, hzero, h.line, Nat.add_zero]

/-- A word is read, and becomes a token. -/
theorem Scanning.word (h : Scanning source runs s) (hx : source[s.curr]? = some x) (halpha : isAlpha x = true)
    (hrun : IsRun isAlphaNumeric source s.curr j) :
    ∃ s', { s with start := s.curr }.scanToken = some s' ∧ Scanning source (runs ++ [(s.curr, j)]) s' ∧
      s'.curr = j := by
  have hlt := hrun.lt
  have hcount : (source.take j).count '\n' = (source.take s.curr).count '\n' := by
    have hzero : (segment source s.curr j).count '\n' = 0 := by
      refine List.count_eq_zero.mpr fun hmem => ?_
      exact absurd (hrun.mem_segment _ hmem) (by decide)
    rw [← take_segment source (Nat.le_of_lt hlt), List.count_append, hzero, Nat.add_zero]
  have hadvance : ({ s with start := s.curr } : Scanner).advance =
      some (x, { s with start := s.curr, curr := s.curr + 1 }) := advance_eq (by
    rw [← h.src_eq] at hx
    exact hx)
  have hterm := term_eq (s := { s with start := s.curr, curr := s.curr + 1 }) (j := j) (by
    rw [← h.src_eq] at hrun
    exact hrun) (Nat.lt_succ_self _) hlt
  have hspace : ¬ (x = ' ' ∨ x = '\r' ∨ x = '\t') := by
    rintro (rfl | rfl | rfl) <;> cases halpha
  have hline : ¬ x = '\n' := by
    rintro rfl
    cases halpha
  rw [Scanner.scanToken, hadvance, Option.bind_eq_bind, Option.bind_some]
  dsimp only
  rw [if_neg hspace, if_neg hline, if_pos halpha, hterm]
  refine ⟨_, rfl, ⟨h.src_eq, hrun.le, ?_, h.upTo.push hrun, ?_⟩, rfl⟩
  · show s.line = 1 + (source.take j).count '\n'
    rw [hcount, h.line]
  · obtain rfl := h.src_eq
    obtain ⟨⟨hand, hor⟩, hnot, hother⟩ := getD_keywords_eq_iff (segment s.src s.curr j)
    have htoken : Token.IsWord s.src s.curr j
        ⟨(keywords (segment s.src s.curr j)).getD .term, segment s.src s.curr j, .nil, s.line⟩ :=
      ⟨rfl, h.line, rfl, hand, hor, hnot, hother⟩
    exact List.rel_append h.tokens (.cons htoken .nil)

end Scanner

/-! ## The tokens of a source -/

/-- The characters that are in no word are white space, and no word starts with a digit. -/
structure WellFormed (source : List Char) : Prop where
  chars : ∀ x ∈ source, isAlphaNumeric x = true ∨ isSpace x = true
  words : ∀ i j, IsRun isAlphaNumeric source i j → source[i]?.any isAlpha = true

theorem isSpace_eq_false {x : Char} (h : isAlphaNumeric x = true) : isSpace x = false := by
  have hall : ∀ n ∈ [0x09, 0x0a, 0x0b, 0x0c, 0x0d, 0x20, 0x85, 0xa0, 0x1680, 0x2000, 0x2001, 0x2002, 0x2003,
      0x2004, 0x2005, 0x2006, 0x2007, 0x2008, 0x2009, 0x200a, 0x2028, 0x2029, 0x202f, 0x205f, 0x3000],
      isAlphaNumeric (Char.ofNat n) = false := by decide
  cases hspace : isSpace x with
  | false => rfl
  | true =>
    have hx := hall x.toNat (of_decide_eq_true hspace)
    rw [Char.ofNat_toNat, h] at hx
    cases hx

/-- What is not white space belongs to words. -/
theorem WellFormed.filter_eq {source : List Char} (h : WellFormed source) :
    (source.filter fun x => !isSpace x) = source.filter isAlphaNumeric := by
  refine List.filter_congr fun x hx => ?_
  cases hp : isAlphaNumeric x with
  | true => rw [isSpace_eq_false hp, Bool.not_false]
  | false =>
    have hspace := (h.chars x hx).resolve_left (by
      rw [hp]
      exact Bool.false_ne_true)
    rw [hspace, Bool.not_true]

/-- The lexemes are the words. -/
theorem map_lexeme {source : List Char} {runs : List (ℕ × ℕ)} {tokens : List Token}
    (h : List.Forall₂ (fun r tk => Token.IsWord source r.1 r.2 tk) runs tokens) :
    tokens.map Token.lexeme = runs.map fun r => segment source r.1 r.2 := by
  induction h with
  | nil => rfl
  | cons hr _ ih => rw [List.map_cons, List.map_cons, hr.lexeme, ih]

/-- **Scanning** ends, and gives one token for each word, in order and in its line, and `Eof` behind them; without
its white space the source is what the tokens say. -/
theorem scanTokens_words {source : List Char} (h : WellFormed source) :
    ∃ (runs : List (ℕ × ℕ)) (tokens : List Token) (line : ℕ),
      (∀ i j, (i, j) ∈ runs ↔ IsRun isAlphaNumeric source i j) ∧ (runs.Pairwise fun r r' => r.2 < r'.1) ∧
      List.Forall₂ (fun r tk => Token.IsWord source r.1 r.2 tk) runs tokens ∧
      (Scanner.new source).scanTokens = some (tokens ++ [⟨.eof, [], .nil, line⟩]) ∧
      (source.filter fun x => !isSpace x) = (tokens.map Token.lexeme).flatten := by
  obtain ⟨s', h1, ⟨runs, h2⟩, h3⟩ := whileLoop_inv (fun s => !s.isAtEnd)
    (fun s => { s with start := s.curr }.scanToken) (fun s => ∃ runs, s.Scanning source runs)
    (fun s => source.length - s.curr)
    (by
      rintro s ⟨runs, hs⟩ hc
      have hlt : s.curr < source.length := by
        rw [Scanner.isAtEnd, hs.src_eq, Bool.not_eq_true', decide_eq_false_iff_not] at hc
        exact Nat.not_le.mp hc
      have hx : source[s.curr]? = some source[s.curr] := List.getElem?_eq_getElem hlt
      cases hp : isAlphaNumeric source[s.curr] with
      | false =>
        obtain ⟨s', h1, h2, h3⟩ := hs.skip hx hp
        exact ⟨s', h1, ⟨runs, h2⟩, by omega⟩
      | true =>
        have hany : source[s.curr]?.any isAlphaNumeric = true := by rw [hx, Option.any_some, hp]
        obtain ⟨j, hrun⟩ := IsRun.exists_of_start (hs.upTo.left_false hany) hany
        have halpha := h.words s.curr j hrun
        rw [hx, Option.any_some] at halpha
        obtain ⟨s', h1, h2, h3⟩ := hs.word hx halpha hrun
        have hrunlt := hrun.lt
        exact ⟨s', h1, ⟨_, h2⟩, by omega⟩)
    (source.length + 1) (Scanner.new source)
    ⟨[], rfl, Nat.zero_le _, rfl, RunsUpTo.start _ _, .nil⟩ (by
      show source.length - 0 < source.length + 1
      omega)
  have hend : source.length ≤ s'.curr := by
    rw [Scanner.isAtEnd, h2.src_eq, Bool.not_eq_false', decide_eq_true_eq] at h3
    exact h3
  refine ⟨runs, s'.tokens, s'.line, h2.upTo.complete hend, h2.upTo.ordered, h2.tokens, ?_, ?_⟩
  · rw [Scanner.scanTokens, show (Scanner.new source).src.length + 1 = source.length + 1 from rfl, h1]
    rfl
  · rw [h.filter_eq, map_lexeme h2.tokens, h2.upTo.text, List.take_of_length_le hend]

/-- Two words and a keyword, in two lines. -/
def sampleSource : List Char := "ANDY\t_1\nNOT".toList

theorem scanTokens_words_sample : ∃ (tokens : List Token) (line : ℕ),
    (Scanner.new sampleSource).scanTokens = some (tokens ++ [⟨.eof, [], .nil, line⟩]) ∧
      (tokens.map Token.lexeme).flatten = "ANDY_1NOT".toList := by
  have hstarts : ∀ i < sampleSource.length, sampleSource[i]?.any isAlphaNumeric = true →
      (∀ k < i, k + 1 = i → sampleSource[k]?.any isAlphaNumeric = false) →
        sampleSource[i]?.any isAlpha = true := by decide
  have hchars : sampleSource.all (fun x => isAlphaNumeric x || isSpace x) = true := by decide
  have hsource : WellFormed sampleSource := by
    refine ⟨fun x hx => (Bool.or_eq_true _ _).mp (List.all_eq_true.mp hchars x hx), fun i j hrun => ?_⟩
    have hlt := hrun.lt
    have hle := hrun.le
    exact hstarts i (by omega) (hrun.all i (Nat.le_refl i) hlt) fun k _ hk => hrun.left k hk
  obtain ⟨runs, tokens, line, -, -, -, h1, h2⟩ := scanTokens_words hsource
  exact ⟨tokens, line, h1, h2.symm.trans (by decide)⟩

end Csapp.Parsing
