import Csapp.Eval14.Accepts
import Csapp.Eval14.Scanner

/-!
# Eval14.Print — formatting an expression

`Format` puts parentheses around every operator, so that its text is scanned to a primary expression.  The numbers of
`strconv` and `fmt` are parameters; `FloatText` says what the round trip needs of them: that `%g` writes a number which
has been read in decimal, and that it is read again as the same number.
-/

namespace Csapp.Eval14

open Csapp.Lib

variable {α : Type}

/-! ## print.go -/

section Write

variable (fmtg : α → String)

mutual

def write : Expr α → String
  | .literal value => fmtg value
  | .var name => name
  | .unary op x => String.singleton '(' ++ String.singleton op ++ write x ++ String.singleton ')'
  | .binary op x y =>
    String.singleton '(' ++ write x ++ (String.singleton ' ' ++ String.singleton op ++ String.singleton ' ') ++
      write y ++ String.singleton ')'
  | .call fn args => fn ++ String.singleton '(' ++ writeArgs 0 args ++ String.singleton ')'

/-- The loop over the arguments, from index `i` on. -/
def writeArgs : ℕ → List (Expr α) → String
  | _, [] => ""
  | i, arg :: args =>
    (if 0 < i then String.singleton ',' ++ String.singleton ' ' else "") ++ write arg ++ writeArgs (i + 1) args

end

def Format (e : Expr α) : String := write fmtg e

end Write

/-! ## Reading the text -/

/-- What `strconv.ParseFloat` gives of texts without a sign: numbers that `%g` writes in decimal, with the digits
that are enough to read them again. -/
structure FloatText (conv : Conv α) (fmtg : α → String) : Prop where
  numeral : ∀ text f, Unsigned text → conv.parseFloat text = .ok f → IsNumeral (fmtg f).toList
  readBack : ∀ text f, Unsigned text → conv.parseFloat text = .ok f → conv.parseFloat (fmtg f) = .ok f

section RoundTrip

variable (U : Unicode) (conv : Conv α)

/-- A number that has been read. -/
def IsValue (f : α) : Prop := ∃ text, Unsigned text ∧ conv.parseFloat text = .ok f

mutual

/-- The identifiers, numbers and operators of the expression are some that the parser can give. -/
def Expr.Scanned : Expr α → Prop
  | .literal value => IsValue conv value
  | .var name => IsIdent U name
  | .unary op x => (op = '+' ∨ op = '-') ∧ x.Scanned
  | .binary op x y => 0 < precedence op ∧ x.Scanned ∧ y.Scanned
  | .call fn args => IsIdent U fn ∧ argsScanned args

def argsScanned : List (Expr α) → Prop
  | [] => True
  | arg :: args => arg.Scanned ∧ argsScanned args

end

variable {U conv} {fmtg : α → String}

mutual

theorem Binary.scanned : ∀ {p : ℕ} {e : Expr α} {ts : List Token}, Binary conv p e ts → (∀ t ∈ ts, t.Scanned U) →
    e.Scanned U conv
  | _, _, _, .unary h, hts => h.scanned hts
  | _, _, _, .op _ hop hx hy, hts => by
    unfold Expr.Scanned
    refine ⟨hop, hx.scanned fun t ht => hts t (List.mem_append_left _ ht), hy.scanned fun t ht => hts t ?_⟩
    exact List.mem_append_right _ (List.mem_cons_of_mem _ ht)

theorem Unary.scanned : ∀ {e : Expr α} {ts : List Token}, Unary conv e ts → (∀ t ∈ ts, t.Scanned U) →
    e.Scanned U conv
  | _, _, .op hop h, hts => by
    unfold Expr.Scanned
    exact ⟨hop, h.scanned fun t ht => hts t (List.mem_cons_of_mem _ ht)⟩
  | _, _, .primary h, hts => h.scanned hts

theorem Primary.scanned : ∀ {e : Expr α} {ts : List Token}, Primary conv e ts → (∀ t ∈ ts, t.Scanned U) →
    e.Scanned U conv
  | _, _, .var, hts => hts _ List.mem_cons_self
  | _, _, .literal hf, hts => ⟨_, hts _ List.mem_cons_self, hf⟩
  | _, _, .paren h, hts => h.scanned fun t ht => hts t (List.mem_cons_of_mem _ (List.mem_append_left _ ht))
  | _, _, .call h, hts => by
    unfold Expr.Scanned
    refine ⟨hts _ List.mem_cons_self, h.scanned fun t ht => hts t ?_⟩
    exact List.mem_cons_of_mem _ (List.mem_cons_of_mem _ (List.mem_append_left _ ht))
  | _, _, .callNil, hts => by
    unfold Expr.Scanned argsScanned
    exact ⟨hts _ List.mem_cons_self, trivial⟩

theorem Args.scanned : ∀ {es : List (Expr α)} {ts : List Token}, Args conv es ts → (∀ t ∈ ts, t.Scanned U) →
    argsScanned U conv es
  | _, _, .one h, hts => by
    unfold argsScanned argsScanned
    exact ⟨h.scanned hts, trivial⟩
  | _, _, .cons h h', hts => by
    unfold argsScanned
    refine ⟨h.scanned fun t ht => hts t (List.mem_append_left _ ht), h'.scanned fun t ht => hts t ?_⟩
    exact List.mem_append_right _ (List.mem_cons_of_mem _ ht)

end

theorem Ends.cons {c : Char} (hc : c ∈ [' ', ',', '(', ')']) (s : Text) : Ends (c :: s) := Or.inr ⟨c, s, hc, rfl⟩

theorem tokens_blank (s : Text) : tokens U (' ' :: s) = tokens U s := tokens_whitespace (by decide) s

theorem mem_of_precedence {op : Char} (h : 0 < precedence op) : op ∈ ['+', '-', '*', '/', '(', ')', ','] := by
  unfold precedence at h
  split at h
  · rename_i hop
    rcases hop with rfl | rfl <;> decide
  · split at h
    · rename_i hop
      rcases hop with rfl | rfl <;> decide
    · exact absurd h (Nat.lt_irrefl 0)

/-- The comma in front of the argument with index `i`. -/
def separator (i : ℕ) : List Token := if 0 < i then [.rune ','] else []

theorem separator_zero : separator 0 = [] := rfl

theorem separator_succ (i : ℕ) : separator (i + 1) = [.rune ','] := if_pos (Nat.succ_pos i)

theorem tokens_separator (i : ℕ) (s : Text) :
    tokens U ((if 0 < i then String.singleton ',' ++ String.singleton ' ' else "").toList ++ s) =
      separator i ++ tokens U s := by
  unfold separator
  by_cases hi : 0 < i
  · rw [if_pos hi, if_pos hi, String.toList_append, String.toList_singleton, String.toList_singleton]
    exact (tokens_rune (by decide) _).trans (congrArg _ (tokens_blank s))
  · rw [if_neg hi, if_neg hi]
    rfl

/-- What is written of an expression is scanned to a primary expression of the grammar. -/
def Reads (U : Unicode) (conv : Conv α) (fmtg : α → String) (e : Expr α) : Prop :=
  ∃ ts, Primary conv e ts ∧ ∀ s, Ends s → tokens U ((write fmtg e).toList ++ s) = ts ++ tokens U s

mutual

theorem Expr.reads (hf : FloatText conv fmtg) : ∀ e : Expr α, e.Scanned U conv → Reads U conv fmtg e
  | .literal value, h => by
    unfold Expr.Scanned at h
    obtain ⟨text, htext, hvalue⟩ := h
    refine ⟨[.number (fmtg value)], .literal (hf.readBack text value htext hvalue), fun s hs => ?_⟩
    unfold write
    exact tokens_numeral (hf.numeral text value htext hvalue) hs
  | .var name, h => by
    unfold Expr.Scanned at h
    refine ⟨[.ident name], .var, fun s hs => ?_⟩
    unfold write
    exact tokens_ident h hs
  | .unary op x, h => by
    unfold Expr.Scanned at h
    obtain ⟨ts, hx, hscan⟩ := x.reads hf h.2
    refine ⟨_, .paren (.unary (.op h.1 (.primary hx))), fun s _ => ?_⟩
    have hop : op ∈ ['+', '-', '*', '/', '(', ')', ','] := by
      rcases h.1 with rfl | rfl <;> decide
    unfold write
    simp only [String.toList_append, String.toList_singleton, List.append_assoc, List.cons_append, List.nil_append]
    rw [tokens_rune (by decide), tokens_rune hop, hscan _ (.cons (by decide) s), tokens_rune (by decide)]
  | .binary op x y, h => by
    unfold Expr.Scanned at h
    obtain ⟨ts, hx, hscan⟩ := x.reads hf h.2.1
    obtain ⟨us, hy, hscan'⟩ := y.reads hf h.2.2
    have hone : 1 ≤ precedence op := h.1
    refine ⟨_, .paren (.op hone h.1 (.unary (.primary hx)) (.unary (.primary hy))), fun s _ => ?_⟩
    have hop : op ∈ ['+', '-', '*', '/', '(', ')', ','] := mem_of_precedence h.1
    unfold write
    simp only [String.toList_append, String.toList_singleton, List.append_assoc, List.cons_append, List.nil_append]
    rw [tokens_rune (by decide), hscan _ (.cons (by decide) _), tokens_blank, tokens_rune hop, tokens_blank,
      hscan' _ (.cons (by decide) s), tokens_rune (by decide)]
  | .call fn args, h => by
    unfold Expr.Scanned at h
    have hread := fun hne => args_read hf 0 args hne h.2
    cases args with
    | nil =>
      refine ⟨_, .callNil, fun s _ => ?_⟩
      unfold write writeArgs
      simp only [String.toList_append, String.toList_singleton, String.toList_empty, List.append_assoc,
        List.cons_append, List.nil_append]
      rw [tokens_ident h.1 (.cons (by decide) _), tokens_rune (by decide), tokens_rune (by decide)]
    | cons arg args =>
      obtain ⟨ts, hargs, hscan⟩ := hread (List.cons_ne_nil _ _)
      refine ⟨_, .call hargs, fun s _ => ?_⟩
      unfold write
      simp only [String.toList_append, String.toList_singleton, List.append_assoc, List.cons_append, List.nil_append]
      rw [tokens_ident h.1 (.cons (by decide) _), tokens_rune (by decide), hscan _ (.cons (by decide) s),
        tokens_rune (by decide)]
      simp only [separator_zero, List.nil_append]

theorem args_read (hf : FloatText conv fmtg) : ∀ (i : ℕ) (args : List (Expr α)), args ≠ [] → argsScanned U conv args →
    ∃ ts, Args conv args ts ∧
      ∀ s, Ends s → tokens U ((writeArgs fmtg i args).toList ++ s) = separator i ++ ts ++ tokens U s
  | _, [], hne, _ => absurd rfl hne
  | i, arg :: args, _, h => by
    unfold argsScanned at h
    obtain ⟨ts, harg, hscan⟩ := arg.reads hf h.1
    have hread := fun hne => args_read hf (i + 1) args hne h.2
    cases args with
    | nil =>
      refine ⟨ts, .one (.unary (.primary harg)), fun s hs => ?_⟩
      unfold writeArgs writeArgs
      rw [String.append_empty, String.toList_append, List.append_assoc, tokens_separator, hscan s hs,
        List.append_assoc]
    | cons arg' args =>
      obtain ⟨us, hargs, hscan'⟩ := hread (List.cons_ne_nil _ _)
      refine ⟨ts ++ .rune ',' :: us, .cons (.unary (.primary harg)) hargs, fun s hs => ?_⟩
      have hends : Ends ((writeArgs fmtg (i + 1) (arg' :: args)).toList ++ s) := by
        unfold writeArgs
        rw [if_pos (Nat.succ_pos i), String.toList_append, String.toList_append, String.toList_append,
          String.toList_singleton]
        exact .cons (by decide) _
      rw [writeArgs, String.toList_append, String.toList_append, List.append_assoc, List.append_assoc,
        tokens_separator, hscan _ hends, hscan' s hs]
      simp only [separator_succ, List.cons_append, List.append_assoc, List.nil_append]

end

/-- A text that is written does not begin with a byte order mark. -/
theorem dropMark_write (hf : FloatText conv fmtg) (e : Expr α) (h : e.Scanned U conv) :
    dropMark (write fmtg e).toList = (write fmtg e).toList := by
  have hdrop : ∀ c s, c ≠ '\uFEFF' → dropMark (c :: s) = c :: s := fun c s hc => if_neg hc
  have hident : ∀ id t, IsIdent U id → dropMark (id.toList ++ t) = id.toList ++ t := by
    rintro id t ⟨c, s, heq, hc, -⟩
    rw [heq]
    refine hdrop c _ ?_
    rintro rfl
    rw [isIdentStart, U.letter_mark] at hc
    exact absurd hc (by decide)
  cases e with
  | literal value =>
    unfold Expr.Scanned at h
    obtain ⟨text, htext, hvalue⟩ := h
    obtain ⟨c, s, heq, hc⟩ := (hf.numeral text value htext hvalue).exists_cons
    unfold write
    rw [heq]
    exact hdrop c s (isDigit_cases hc).2.2.2.2
  | var name =>
    unfold Expr.Scanned at h
    have hname := hident name [] h
    rw [List.append_nil] at hname
    unfold write
    exact hname
  | unary op x =>
    unfold write
    simp only [String.toList_append, String.toList_singleton, List.append_assoc, List.cons_append]
    exact hdrop _ _ (by decide)
  | binary op x y =>
    unfold write
    simp only [String.toList_append, String.toList_singleton, List.append_assoc, List.cons_append]
    exact hdrop _ _ (by decide)
  | call fn args =>
    unfold Expr.Scanned at h
    unfold write
    simp only [String.toList_append, List.append_assoc]
    exact hident fn _ h.1

/-- **Format and Parse**: what `Parse` reads of an input is what it reads of the formatted expression. -/
theorem Parse_Format (hf : FloatText conv fmtg) {input : String} {e : Expr α}
    (h : Parse conv (scan U input) = .ok e) : Parse conv (scan U (Format fmtg e)) = .ok e := by
  have hscanned := (Parse_eq_ok.mp h).scanned (scan_scanned input)
  obtain ⟨ts, hts, hscan⟩ := e.reads hf hscanned
  have hall := hscan [] (Or.inl rfl)
  rw [List.append_nil, show tokens U [] = [] from rfl, List.append_nil] at hall
  unfold Format scan
  rw [dropMark_write hf e hscanned, hall]
  exact Parse_eq_ok.mpr (.unary (.primary hts))

end RoundTrip

/-! ### Whole numbers -/

/-- The letters and digits of ASCII. -/
def ascii : Unicode where
  isLetter := Char.isAlpha
  isDigit := Char.isDigit
  letter_ascii _ _ := rfl
  digit_ascii _ _ := rfl
  letter_mark := by decide

/-- Whole numbers below `10 ^ 6`, which `%g` writes without an exponent. -/
def wholeConv : Conv ℕ where
  parseFloat text :=
    if text.toList ≠ [] ∧ text.toList.all Char.isDigit ∧ Nat.ofDigitChars 10 text.toList 0 < 10 ^ 6 then
      .ok (Nat.ofDigitChars 10 text.toList 0)
    else .error "invalid syntax"
  quote c := String.singleton c

def wholeText (n : ℕ) : String := String.ofList (itoa n)

theorem floatText_whole : FloatText wholeConv wholeText := by
  have hdigits : ∀ n, ∀ c ∈ itoa n, c.isDigit = true := fun n c hc => isDigit_of_mem_itoa hc
  constructor
  · intro text f _ _
    rw [wholeText, String.toList_ofList]
    exact ⟨itoa f, [], [], ⟨itoa_ne_nil f, hdigits f⟩, Or.inl rfl, Or.inl rfl, by simp⟩
  · intro text f _ h
    obtain ⟨⟨-, -, hlt⟩, rfl⟩ : (text.toList ≠ [] ∧ text.toList.all Char.isDigit ∧
        Nat.ofDigitChars 10 text.toList 0 < 10 ^ 6) ∧ Nat.ofDigitChars 10 text.toList 0 = f := by
      change (if _ then _ else _) = _ at h
      split_ifs at h with hc
      exact ⟨hc, Except.ok.inj h⟩
    generalize Nat.ofDigitChars 10 text.toList 0 = n at hlt ⊢
    show (if _ then _ else _) = _
    rw [wholeText, String.toList_ofList, ofDigitChars_itoa,
      if_pos ⟨itoa_ne_nil n, List.all_eq_true.mpr (hdigits n), hlt⟩]

def sampleExpr : Expr ℕ :=
  .binary '*' (.binary '/' (.literal 5) (.literal 9)) (.binary '-' (.var "F") (.literal 32))

def sampleTokens : List Token :=
  ([.number "5"] ++ .rune '/' :: [.number "9"]) ++ .rune '*' ::
    (.rune '(' :: (([.ident "F"] ++ .rune '-' :: [.number "32"]) ++ [.rune ')']))

theorem sampleTokens_expr : Binary wholeConv 1 sampleExpr sampleTokens := by
  have h5 : wholeConv.parseFloat "5" = .ok 5 := by decide +kernel
  have h9 : wholeConv.parseFloat "9" = .ok 9 := by decide +kernel
  have h32 : wholeConv.parseFloat "32" = .ok 32 := by decide +kernel
  have hdiv : Binary wholeConv (precedence '*') (.binary '/' (.literal 5) (.literal 9))
      ([.number "5"] ++ .rune '/' :: [.number "9"]) :=
    .op (by decide) (by decide) (.unary (.primary (.literal h5))) (.unary (.primary (.literal h9)))
  have hsub : Binary wholeConv 1 (.binary '-' (.var "F") (.literal 32))
      ([.ident "F"] ++ .rune '-' :: [.number "32"]) :=
    .op (by decide) (by decide) (.unary (.primary .var)) (.unary (.primary (.literal h32)))
  exact .op (by decide) (by decide) hdiv (.unary (.primary (.paren hsub)))

theorem Parse_Format_sample : Format wholeText sampleExpr = "((5 / 9) * (F - 32))" ∧
    Parse wholeConv (scan ascii "5 / 9 * (F - 32)") = .ok sampleExpr ∧
    Parse wholeConv (scan ascii (Format wholeText sampleExpr)) = .ok sampleExpr := by
  have htokens : scan ascii "5 / 9 * (F - 32)" = sampleTokens := by decide +kernel
  have hparse : Parse wholeConv (scan ascii "5 / 9 * (F - 32)") = .ok sampleExpr := by
    rw [htokens]
    exact Parse_eq_ok.mpr sampleTokens_expr
  exact ⟨by decide +kernel, hparse, Parse_Format floatText_whole hparse⟩

end Csapp.Eval14
