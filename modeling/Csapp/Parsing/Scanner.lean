import Csapp.Lib.Loop
import Csapp.Lib.Text

/-!
# Parsing.Scanner — the tokens and the scanner of `03-parsing`

The scanner works on the runes of the source.  `none` is an index out of range or a loop that does not end;
`scanTokens_spec` rules both out and says what a token is: its type is that of its text, and its `Literal`
is `nil`, as both calls of `addToken` pass `nil`.
-/

namespace Csapp.Parsing

open Csapp.Lib

/-! ## Tokens -/

inductive TokenType
  | term
  | and
  | or
  | not
  | eof
  deriving DecidableEq

/-- A value of type `any`, as far as the scanner and the parser make any. -/
inductive Literal
  | nil
  | text (s : Text)
  deriving DecidableEq

structure Token where
  typ : TokenType
  lexeme : Text
  literal : Literal
  line : ℕ
  deriving DecidableEq

/-! ## The scanner -/

def keywords (text : Text) : Option TokenType :=
  if text = "AND".toList then some .and
  else if text = "OR".toList then some .or
  else if text = "NOT".toList then some .not
  else none

/-- `reports` are the calls of `Fail`, which print the line and the text and set `HadError`. -/
structure Scanner where
  src : List Char
  tokens : List Token
  start : ℕ
  curr : ℕ
  line : ℕ
  reports : List (ℕ × String)

def Scanner.new (source : List Char) : Scanner := ⟨source, [], 0, 0, 1, []⟩

def isDigit (c : Char) : Bool := decide ('0' ≤ c ∧ c ≤ '9')

def isAlpha (c : Char) : Bool := decide ('a' ≤ c ∧ c ≤ 'z') || decide ('A' ≤ c ∧ c ≤ 'Z') || c == '_'

def isAlphaNumeric (c : Char) : Bool := isAlpha c || isDigit c

namespace Scanner

def isAtEnd (s : Scanner) : Bool := decide (s.curr ≥ s.src.length)

def advance (s : Scanner) : Option (Char × Scanner) :=
  s.src[s.curr]?.map fun currChar => (currChar, { s with curr := s.curr + 1 })

def peek (s : Scanner) : Char := if s.isAtEnd then '\x00' else s.src.getD s.curr '\x00'

/-- `s.src[s.start:s.curr]`. -/
def text (s : Scanner) : Text := (s.src.take s.curr).drop s.start

def addToken (s : Scanner) (typ : TokenType) (literal : Literal) : Scanner :=
  { s with tokens := s.tokens ++ [⟨typ, s.text, literal, s.line⟩] }

def fail (s : Scanner) (msg : String) : Scanner := { s with reports := s.reports ++ [(s.line, msg)] }

def term (s : Scanner) : Option Scanner := do
  let s ← whileLoop (fun s => isAlphaNumeric s.peek) (fun s => s.advance.map Prod.snd) (s.src.length + 1) s
  match keywords s.text with
  | some typ => some (s.addToken typ .nil)
  | none => some (s.addToken .term .nil)

def scanToken (s : Scanner) : Option Scanner := do
  let (c, s) ← s.advance
  if c = ' ' ∨ c = '\r' ∨ c = '\t' then some s
  else if c = '\n' then some { s with line := s.line + 1 }
  else if isAlpha c then s.term
  else some (s.fail "Unexpected character.")

def scanTokens (s : Scanner) : Option (List Token) := do
  let s ← whileLoop (fun s => !s.isAtEnd) (fun s => { s with start := s.curr }.scanToken) (s.src.length + 1) s
  some (s.tokens ++ [⟨.eof, [], .nil, s.line⟩])

end Scanner

/-! ## The tokens of a source -/

/-- The type is that of the text, and the literal is `nil`. -/
structure Token.Scanned (tk : Token) : Prop where
  typ : tk.typ = (keywords tk.lexeme).getD .term
  literal : tk.literal = .nil

/-- What the loops keep. -/
structure Scanner.Good (src : List Char) (s : Scanner) : Prop where
  src_eq : s.src = src
  curr_le : s.curr ≤ src.length
  scanned : ∀ tk ∈ s.tokens, tk.Scanned

namespace Scanner

variable {src : List Char} {s : Scanner}

theorem Good.advance (h : Good src s) (hlt : s.curr < src.length) : ∃ c s', s.advance = some (c, s') ∧
    Good src s' ∧ s'.curr = s.curr + 1 := by
  obtain ⟨rfl, hle, hs⟩ := h
  refine ⟨s.src[s.curr], { s with curr := s.curr + 1 }, ?_, ⟨rfl, hlt, hs⟩, rfl⟩
  rw [Scanner.advance, List.getElem?_eq_getElem hlt]
  rfl

theorem Good.addToken (h : Good src s) {typ : TokenType} (ht : typ = (keywords s.text).getD .term) :
    Good src (s.addToken typ .nil) := by
  refine ⟨h.src_eq, h.curr_le, fun tk htk => ?_⟩
  rcases List.mem_append.mp htk with htk | htk
  · exact h.scanned tk htk
  · obtain rfl := List.mem_singleton.mp htk
    exact ⟨ht, rfl⟩

theorem Good.term (h : Good src s) : ∃ s', s.term = some s' ∧ Good src s' ∧ s.curr ≤ s'.curr := by
  have hlen : s.src.length = src.length := by rw [h.src_eq]
  obtain ⟨s₁, h1, ⟨h2, h3⟩, -⟩ := whileLoop_inv (fun s => isAlphaNumeric s.peek)
    (fun s => s.advance.map Prod.snd) (fun s₁ => Good src s₁ ∧ s.curr ≤ s₁.curr) (fun s => src.length - s.curr)
    (by
      rintro s₁ ⟨hg, hle⟩ hc
      have hlt : s₁.curr < src.length := by
        by_contra hge
        have hend : s₁.isAtEnd = true := by
          rw [isAtEnd, hg.src_eq]
          exact decide_eq_true (Nat.not_lt.mp hge)
        rw [peek, if_pos hend] at hc
        exact absurd hc (by decide)
      obtain ⟨c, s₂, h1, h2, h3⟩ := hg.advance hlt
      exact ⟨s₂, by rw [h1]; rfl, ⟨h2, by omega⟩, by omega⟩)
    (s.src.length + 1) s ⟨h, le_rfl⟩ (by omega)
  rw [Scanner.term, h1]
  show ∃ s', (match keywords s₁.text with
    | some typ => some (s₁.addToken typ .nil)
    | none => some (s₁.addToken .term .nil)) = some s' ∧ _
  cases hk : keywords s₁.text with
  | some typ => exact ⟨_, rfl, h2.addToken (by rw [hk]; rfl), h3⟩
  | none => exact ⟨_, rfl, h2.addToken (by rw [hk]; rfl), h3⟩

theorem Good.scanToken (h : Good src s) (hlt : s.curr < src.length) : ∃ s', s.scanToken = some s' ∧ Good src s' ∧
    s.curr < s'.curr := by
  obtain ⟨c, s₁, h1, h2, h3⟩ := h.advance hlt
  rw [Scanner.scanToken, h1]
  simp only [Option.bind_eq_bind, Option.bind_some]
  split_ifs
  · exact ⟨s₁, rfl, h2, by omega⟩
  · exact ⟨_, rfl, ⟨h2.src_eq, h2.curr_le, h2.scanned⟩, by dsimp only; omega⟩
  · obtain ⟨s', h4, h5, h6⟩ := h2.term
    exact ⟨s', h4, h5, by omega⟩
  · exact ⟨_, rfl, ⟨h2.src_eq, h2.curr_le, h2.scanned⟩, by simp only [fail]; omega⟩

end Scanner

/-- **Scanning ends**, and gives scanned tokens with `Eof` behind them. -/
theorem scanTokens_spec (source : List Char) : ∃ ts line, (∀ tk ∈ ts, tk.Scanned) ∧
    (Scanner.new source).scanTokens = some (ts ++ [⟨.eof, [], .nil, line⟩]) := by
  have hnew : Scanner.Good source (Scanner.new source) := ⟨rfl, Nat.zero_le _, fun tk htk => by cases htk⟩
  obtain ⟨s', h1, h2, -⟩ := whileLoop_inv (fun s => !s.isAtEnd)
    (fun s => { s with start := s.curr }.scanToken) (Scanner.Good source) (fun s => source.length - s.curr)
    (by
      intro s hg hc
      have hlt : s.curr < source.length := by
        rw [Scanner.isAtEnd, hg.src_eq, Bool.not_eq_true', decide_eq_false_iff_not] at hc
        exact Nat.not_le.mp hc
      have hstart : Scanner.Good source { s with start := s.curr } := ⟨hg.src_eq, hg.curr_le, hg.scanned⟩
      obtain ⟨s', h1, h2, h3⟩ := hstart.scanToken hlt
      exact ⟨s', h1, h2, by dsimp only at h3; omega⟩)
    (source.length + 1) (Scanner.new source) hnew (by
      show source.length - 0 < source.length + 1
      omega)
  refine ⟨s'.tokens, s'.line, h2.scanned, ?_⟩
  rw [Scanner.scanTokens, show (Scanner.new source).src.length + 1 = source.length + 1 from rfl, h1]
  rfl

end Csapp.Parsing
