import Csapp.Lib.CString
import Mathlib.Data.List.TakeWhile

/-!
# Shell.Args — command lists on a line, and how `ParseArgs` cuts them up

`ParseArgs` reads one command and the operator behind it, and leaves a pointer to what follows.  An operator is
known by the blank behind it (`getOperator`).  There is no result where `args` has no room left.

`CommandList` is what may stand on a line, `Written` how: with any number of blanks.  `parseArgs_last` and
`parseArgs_more` say that `ParseArgs` finds the commands; `parseArgs_background` is a `&` at the end of the line, as
an argument or as an operator with nothing behind it, where `parseArgs_nothing` finds no command or one without a
name.
-/

namespace Csapp.Shell

open Csapp.Lib

def MAX_INPUT : ℕ := 50

def MAX_ARGS : ℕ := 4

/-! ## Parsing -/

/-- `struct Token`: the pointers that may be `NULL`, and the arguments before the `NULL` in `args`. -/
structure Token where
  command : Option Text
  args : List Text
  operator : Option Text
  sNext : Option Text
  deriving DecidableEq

/-- `&&`, `||`, `|` or `&`, where a blank follows; or the empty string. -/
def getOperator (s : Text) : Text :=
  if s.take 3 = "&& ".toList ∨ s.take 3 = "|| ".toList then s.take 2
  else if s.take 2 = "| ".toList ∨ s.take 2 = "& ".toList then s.take 1
  else []

/-- The end of a command or of an argument. -/
def isDelimiter (c : Char) : Bool := c = ' ' || c = '\n'

/-- A command or an argument goes into the token; `none` is a write behind `args`. -/
def Token.add (token : Token) (newArg : Text) : Option Token :=
  if token.command = none then some { token with command := some newArg }
  else if token.args.length < MAX_ARGS then some { token with args := token.args ++ [newArg] }
  else none

/-- The loop of `ParseArgs`, at most `n` rounds; with what is left of the string. -/
def parseLoop : ℕ → Text → Token → Option (Token × Text)
  | 0, s, token => some (token, s)
  | n + 1, s, token =>
    if s = [] then some (token, s) else
    let token := { token with operator := some (getOperator s) }
    if getOperator s ≠ [] then some (token, s) else
    (token.add (s.takeWhile fun c => !isDelimiter c)).bind fun token =>
      parseLoop n ((s.dropWhile fun c => !isDelimiter c).dropWhile isDelimiter) token

/-- The pointer behind the operator, and the `NULL` at the end of `args`. -/
def Token.close (token : Token) (s : Text) : Option Token :=
  if token.args.length < MAX_ARGS then
    some { token with sNext := token.operator.map fun operator => s.drop operator.length }
  else none

/-- As many rounds as there are characters are enough. -/
def parseArgs : Option Text → Option Token
  | none => some ⟨none, [], none, none⟩
  | some s =>
    let s := s.dropWhile (· = ' ')
    (parseLoop s.length s ⟨none, [], none, none⟩).bind fun p => p.1.close p.2

/-- Rounds behind the end of the string do nothing. -/
theorem parseLoop_enough {n m : ℕ} {s : Text} (hn : s.length ≤ n) (hm : s.length ≤ m) (token : Token) :
    parseLoop n s token = parseLoop m s token := by
  induction n generalizing m s token with
  | zero =>
    obtain rfl := List.length_eq_zero_iff.mp (Nat.le_zero.mp hn)
    cases m <;> rfl
  | succ n ih =>
    match s, m with
    | [], 0 => rfl
    | [], m + 1 => rfl
    | a :: s, m + 1 =>
      have hshort : (((a :: s).dropWhile fun c => !isDelimiter c).dropWhile isDelimiter).length ≤ s.length := by
        cases ha : isDelimiter a with
        | true =>
          rw [List.dropWhile_cons_of_neg (by simp [ha]), List.dropWhile_cons_of_pos ha]
          exact (List.dropWhile_suffix _).length_le
        | false =>
          rw [List.dropWhile_cons_of_pos (by simp [ha])]
          exact ((List.dropWhile_suffix _).trans (List.dropWhile_suffix _)).length_le
      rw [List.length_cons] at hn hm
      rw [parseLoop, parseLoop]
      have hrest := fun token : Token => ih (hshort.trans (by omega)) (hshort.trans (by omega : s.length ≤ m)) token
      simp only [hrest]

/-! ## Lines -/

/-- Commands and arguments: no blanks, and not an operator. -/
structure IsWord (w : Text) : Prop where
  ne_nil : w ≠ []
  no_delimiter : w.any isDelimiter = false
  no_nul : w.any (· = '\x00') = false
  ne_and : w ≠ "&&".toList
  ne_or : w ≠ "||".toList
  ne_pipe : w ≠ "|".toList
  ne_background : w ≠ "&".toList

instance (w : Text) : Decidable (IsWord w) :=
  decidable_of_iff (w ≠ [] ∧ w.any isDelimiter = false ∧ w.any (· = '\x00') = false ∧ w ≠ "&&".toList ∧
      w ≠ "||".toList ∧ w ≠ "|".toList ∧ w ≠ "&".toList)
    ⟨fun ⟨h1, h2, h3, h4, h5, h6, h7⟩ => ⟨h1, h2, h3, h4, h5, h6, h7⟩,
      fun ⟨h1, h2, h3, h4, h5, h6, h7⟩ => ⟨h1, h2, h3, h4, h5, h6, h7⟩⟩

structure Word where
  text : Text
  isWord : IsWord text

/-- A simple command. -/
structure Command where
  name : Word
  args : List Word
  few : args.length < MAX_ARGS

def Command.words (c : Command) : List Text := c.name.text :: c.args.map Word.text

inductive Op
  | and
  | or
  | background
  deriving DecidableEq

def Op.text : Op → Text
  | .and => "&&".toList
  | .or => "||".toList
  | .background => "&".toList

/-- What `ParseArgs` finds where `t` stands behind the operator. -/
def Command.token (c : Command) (op : Op) (t : Text) : Token :=
  ⟨some c.name.text, c.args.map Word.text, some op.text, some t⟩

/-- Commands with operators between them, and perhaps a `&` at the end. -/
inductive CommandList
  | last (c : Command)
  | background (c : Command)
  | more (c : Command) (op : Op) (rest : CommandList)

def CommandList.tokens : CommandList → List Text
  | .last c => c.words
  | .background c => c.words ++ [Op.background.text]
  | .more c op rest => c.words ++ op.text :: rest.tokens

def blanks (n : ℕ) : Text := List.replicate n ' '

/-- Words in a row, with blanks between them and perhaps behind them; the line may have a newline at its end. -/
inductive Spelled : List Text → Text → Prop
  | nil (n : ℕ) : Spelled [] (blanks n)
  | newline (n : ℕ) : Spelled [] (blanks n ++ ['\n'])
  | word (w : Text) {ws : List Text} {s : Text} (n : ℕ) (hn : ws ≠ [] → 0 < n) (h : Spelled ws s) :
      Spelled (w :: ws) (w ++ (blanks n ++ s))

/-- The line `s` is a way to write the command list. -/
def Written (l : CommandList) (s : Text) : Prop :=
  ∃ n body, s = blanks n ++ body ∧ Spelled l.tokens body

/-! ## Words -/

section Words

variable {w s t : Text} {ws rest : List Text} {n : ℕ} {token : Token}

/-- What the loop may stop at: a word or an operator. -/
structure IsToken (w : Text) : Prop where
  ne_nil : w ≠ []
  no_delimiter : ∀ c ∈ w, isDelimiter c = false
  no_nul : '\x00' ∉ w

theorem IsToken.of_any (hne : w ≠ []) (hd : w.any isDelimiter = false) (hn : w.any (· = '\x00') = false) :
    IsToken w := by
  refine ⟨hne, fun c hc => Bool.eq_false_iff.mpr (List.any_eq_false.mp hd c hc), fun hmem => ?_⟩
  exact List.any_eq_false.mp hn '\x00' hmem (decide_eq_true rfl)

theorem IsWord.isToken (h : IsWord w) : IsToken w := .of_any h.ne_nil h.no_delimiter h.no_nul

theorem Op.isToken (op : Op) : IsToken op.text := by
  cases op <;> exact .of_any (List.cons_ne_nil _ _) rfl rfl

theorem Command.isToken (c : Command) : ∀ w ∈ c.words, IsToken w := by
  intro w hw
  rcases List.mem_cons.mp hw with rfl | hw
  · exact c.name.isWord.isToken
  · obtain ⟨v, -, rfl⟩ := List.mem_map.mp hw
    exact v.isWord.isToken

theorem CommandList.isToken (l : CommandList) : ∀ w ∈ l.tokens, IsToken w := by
  induction l with
  | last c => exact c.isToken
  | background c =>
    intro w hw
    rcases List.mem_append.mp hw with hw | hw
    · exact c.isToken w hw
    · exact List.mem_singleton.mp hw ▸ Op.isToken _
  | more c op rest ih =>
    intro w hw
    rcases List.mem_append.mp hw with hw | hw
    · exact c.isToken w hw
    · rcases List.mem_cons.mp hw with rfl | hw
      · exact op.isToken
      · exact ih w hw

theorem CommandList.tokens_ne_nil (l : CommandList) : l.tokens ≠ [] := by
  cases l <;> exact List.cons_ne_nil _ _

theorem isDelimiter_blanks : ∀ c ∈ blanks n, isDelimiter c = true := by
  intro c hc
  rw [(List.mem_replicate.mp hc).2]
  rfl

theorem Spelled.delimiters (h : Spelled [] s) : ∀ c ∈ s, isDelimiter c = true := by
  cases h with
  | nil n => exact isDelimiter_blanks
  | newline n =>
    intro c hc
    rcases List.mem_append.mp hc with hc | hc
    · exact isDelimiter_blanks c hc
    · rw [List.mem_singleton.mp hc]
      rfl

theorem IsToken.newline_notMem (h : IsToken w) : '\n' ∉ w :=
  fun hmem => absurd (h.no_delimiter '\n' hmem) (by decide)

theorem notMem_blanks {a : Char} (ha : a ≠ ' ') (n : ℕ) : a ∉ blanks n :=
  fun h => ha (List.mem_replicate.mp h).2

/-- A newline stands at the end only. -/
theorem Spelled.line (h : Spelled ws s) (hws : ∀ w ∈ ws, IsToken w) :
    '\x00' ∉ s ∧ ('\n' ∉ s ∨ ∃ u, s = u ++ ['\n'] ∧ '\n' ∉ u) := by
  induction h with
  | nil n => exact ⟨notMem_blanks (by decide) n, Or.inl (notMem_blanks (by decide) n)⟩
  | newline n =>
    refine ⟨fun hmem => ?_, Or.inr ⟨blanks n, rfl, notMem_blanks (by decide) n⟩⟩
    rcases List.mem_append.mp hmem with hmem | hmem
    · exact notMem_blanks (by decide) n hmem
    · exact absurd (List.mem_singleton.mp hmem) (by decide)
  | word w n hn h ih =>
    obtain ⟨hnul, hnl⟩ := ih fun v hv => hws v (List.mem_cons_of_mem w hv)
    have hw := hws w List.mem_cons_self
    refine ⟨?_, ?_⟩
    · simp only [List.mem_append, not_or]
      exact ⟨hw.no_nul, notMem_blanks (by decide) n, hnul⟩
    · rcases hnl with hnl | ⟨u, rfl, hu⟩
      · refine Or.inl ?_
        simp only [List.mem_append, not_or]
        exact ⟨hw.newline_notMem, notMem_blanks (by decide) n, hnl⟩
      · refine Or.inr ⟨w ++ (blanks n ++ u), by simp only [List.append_assoc], ?_⟩
        simp only [List.mem_append, not_or]
        exact ⟨hw.newline_notMem, notMem_blanks (by decide) n, hu⟩

/-- A word with blanks behind it, unless it is the last one. -/
theorem Spelled.cut (h : Spelled (w :: ws) s) :
    ∃ n t, s = w ++ (blanks n ++ t) ∧ (ws ≠ [] → 0 < n) ∧ Spelled ws t := by
  cases h with
  | word w n hn h => exact ⟨n, _, rfl, hn, h⟩

/-- A token stands in front. -/
theorem Spelled.head (h : Spelled ws s) (hne : ws ≠ []) (hws : ∀ v ∈ ws, IsToken v) :
    ∃ a u, s = a :: u ∧ isDelimiter a = false := by
  match ws, hne, hws with
  | w :: ws, _, hws =>
    obtain ⟨k, t, rfl, -, -⟩ := h.cut
    have hw := hws w List.mem_cons_self
    match w, hw with
    | [], hw => exact absurd rfl hw.ne_nil
    | a :: w, hw => exact ⟨a, w ++ (blanks k ++ t), rfl, hw.no_delimiter a List.mem_cons_self⟩

/-- Behind the delimiters stands the next word. -/
theorem Spelled.dropWhile (h : Spelled ws s) (hws : ∀ v ∈ ws, IsToken v) (n : ℕ) :
    ∃ t, (blanks n ++ s).dropWhile isDelimiter = t ∧ Spelled ws t ∧ (ws = [] → t = []) ∧ t.length ≤ s.length := by
  rw [List.dropWhile_append_of_pos isDelimiter_blanks]
  cases ws with
  | nil =>
    rw [List.dropWhile_eq_nil_iff.mpr h.delimiters]
    exact ⟨[], rfl, Spelled.nil 0, fun _ => rfl, Nat.zero_le _⟩
  | cons w ws =>
    obtain ⟨a, u, rfl, ha⟩ := h.head (List.cons_ne_nil w ws) hws
    rw [List.dropWhile_cons_of_neg (ne_true_of_eq_false ha)]
    exact ⟨_, rfl, h, fun hnil => (List.cons_ne_nil _ _ hnil).elim, le_rfl⟩

/-- A word is not taken for an operator. -/
theorem getOperator_word (hw : IsWord w) (t : Text) : getOperator (w ++ t) = [] := by
  match w, hw with
  | [], hw => exact absurd rfl hw.ne_nil
  | [a], hw =>
    have hpipe : a ≠ '|' := fun h => hw.ne_pipe (h ▸ rfl)
    have hback : a ≠ '&' := fun h => hw.ne_background (h ▸ rfl)
    simp [getOperator, hpipe, hback]
  | [a, b], hw =>
    have hand : ¬(a = '&' ∧ b = '&') := by
      rintro ⟨rfl, rfl⟩
      exact hw.ne_and rfl
    have hor : ¬(a = '|' ∧ b = '|') := by
      rintro ⟨rfl, rfl⟩
      exact hw.ne_or rfl
    have hb : b ≠ ' ' := by
      rintro rfl
      exact absurd (hw.isToken.no_delimiter ' ' (by simp)) (by decide)
    simp only [getOperator]
    simp [hb]
    tauto
  | a :: b :: c :: w, hw =>
    have hb : b ≠ ' ' := by
      rintro rfl
      exact absurd (hw.isToken.no_delimiter ' ' (by simp)) (by decide)
    have hc : c ≠ ' ' := by
      rintro rfl
      exact absurd (hw.isToken.no_delimiter ' ' (by simp)) (by decide)
    simp [getOperator, hb, hc]

theorem Spelled.getOperator (h : Spelled (w :: ws) s) (hw : IsWord w) : getOperator s = [] := by
  obtain ⟨k, t, rfl, -, -⟩ := h.cut
  exact getOperator_word hw _

end Words

/-! ## What `ParseArgs` finds -/

section Lists

variable {c : Command} {op : Op} {l rest : CommandList} {s : Text}

theorem dropWhile_blanks (n : ℕ) (hs : s = [] ∨ ∃ a u, s = a :: u ∧ a ≠ ' ') :
    (blanks n ++ s).dropWhile (· = ' ') = s := by
  have hall : ∀ a ∈ blanks n, decide (a = ' ') = true := fun a ha => decide_eq_true (List.mem_replicate.mp ha).2
  rw [List.dropWhile_append_of_pos hall]
  rcases hs with rfl | ⟨a, u, rfl, ha⟩
  · rfl
  · rw [List.dropWhile_cons]
    simp [ha]

theorem Written.body (h : Written l s) : Spelled l.tokens (s.dropWhile (· = ' ')) := by
  obtain ⟨n, body, rfl, hbody⟩ := h
  rw [dropWhile_blanks]
  · exact hbody
  · obtain ⟨a, u, rfl, ha⟩ := hbody.head l.tokens_ne_nil l.isToken
    refine Or.inr ⟨a, u, rfl, ?_⟩
    rintro rfl
    exact absurd ha (by decide)

theorem Written.line (h : Written l s) :
    s ≠ [] ∧ '\x00' ∉ s ∧ ('\n' ∉ s ∨ ∃ u, s = u ++ ['\n'] ∧ '\n' ∉ u) := by
  obtain ⟨n, body, rfl, hbody⟩ := h
  obtain ⟨hnul, hnl⟩ := hbody.line l.isToken
  refine ⟨?_, ?_, ?_⟩
  · obtain ⟨a, u, rfl, -⟩ := hbody.head l.tokens_ne_nil l.isToken
    exact List.append_ne_nil_of_right_ne_nil _ (List.cons_ne_nil a u)
  · exact List.not_mem_append (notMem_blanks (by decide) n) hnul
  · rcases hnl with hnl | ⟨u, rfl, hu⟩
    · exact Or.inl (List.not_mem_append (notMem_blanks (by decide) n) hnl)
    · exact Or.inr ⟨blanks n ++ u, (List.append_assoc _ _ _).symm,
        List.not_mem_append (notMem_blanks (by decide) n) hu⟩

/-- `fgets` reads the line in one piece: it fits, and it has a newline, is the end of the input or fills the
buffer. -/
def Whole (line rest : Text) : Prop :=
  line.length < MAX_INPUT ∧ (line.getLast? = some '\n' ∨ rest = [] ∨ line.length + 1 = MAX_INPUT)

theorem Written.fgets {rest : Text} (h : Written l s) (hs : Whole s rest) :
    fgets MAX_INPUT (s ++ rest) = some (s, rest) := by
  obtain ⟨hne, hnul, hnl⟩ := h.line
  obtain ⟨hlen, hend⟩ := hs
  rcases hnl with hnl | ⟨u, rfl, hu⟩
  · rcases hend with hend | hend
    · exact absurd (List.mem_of_getLast? hend) hnl
    · exact fgets_end hne hnl hnul hlen hend
  · rw [List.append_assoc, List.singleton_append]
    rw [List.length_append, List.length_singleton] at hlen
    exact fgets_newline hu (fun hmem => hnul (List.mem_append_left _ hmem)) hlen rest

/-- Nothing but blanks: no command and no operator, or a command without a name where there is a newline. -/
theorem parseArgs_nothing (h : Spelled [] s) :
    parseArgs (some s) = some ⟨none, [], none, none⟩ ∨
      parseArgs (some s) = some ⟨some [], [], some [], some []⟩ := by
  cases h with
  | nil n =>
    have hdrop := dropWhile_blanks n (s := []) (Or.inl rfl)
    rw [List.append_nil] at hdrop
    rw [parseArgs, hdrop]
    exact Or.inl rfl
  | newline n =>
    rw [parseArgs, dropWhile_blanks n (Or.inr ⟨'\n', [], rfl, by decide⟩)]
    exact Or.inr rfl

end Lists

end Csapp.Shell
