import Csapp.Parsing.Scanner

/-!
# Parsing.Parser — the recursive descent parser of `03-parsing`

The parser has no errors of its own: a function returns, or it panics.  `UnaryTree`, `RestTree` and
`ExprTree` are the productions of the grammar with the trees they give, where an operator takes what stands
left of it as its left operand; the values of the terms are a parameter.  `expression_spec` says what the
parser does on any token list that ends in `Eof`: it reads the longest part that the grammar allows, with
the literals of the tokens as values, or it panics where a term is missing.
-/

namespace Csapp.Parsing

open Csapp.Lib

/-! ## The parser -/

inductive Expr
  | unary (op : Token) (rhs : Expr)
  | binary (lhs : Expr) (op : Token) (rhs : Expr)
  | term (value : Literal)
  deriving DecidableEq

/-- What a call panics with; `fuel` is none of the code's. -/
inductive Panic
  | unreachable
  | indexOutOfRange
  | fuel
  deriving DecidableEq

structure Parser where
  tokens : List Token
  current : ℕ

namespace Parser

def new (tokens : List Token) : Parser := ⟨tokens, 0⟩

def peek (p : Parser) : Except Panic Token :=
  match p.tokens[p.current]? with
  | some tk => .ok tk
  | none => .error .indexOutOfRange

def previous (p : Parser) : Except Panic Token :=
  if p.current = 0 then .error .indexOutOfRange
  else
    match p.tokens[p.current - 1]? with
    | some tk => .ok tk
    | none => .error .indexOutOfRange

def isAtEnd (p : Parser) : Except Panic Bool := do
  let tk ← p.peek
  .ok (decide (tk.typ = .eof))

/-- The token that it returns is not used. -/
def advance (p : Parser) : Except Panic (Token × Parser) := do
  let atEnd ← p.isAtEnd
  let p := if !atEnd then { p with current := p.current + 1 } else p
  let tk ← p.previous
  .ok (tk, p)

def check (p : Parser) (typ : TokenType) : Except Panic Bool := do
  let atEnd ← p.isAtEnd
  if atEnd then .ok false
  else do
    let tk ← p.peek
    .ok (decide (tk.typ = typ))

/-- `match`. -/
def matchAny (p : Parser) : List TokenType → Except Panic (Bool × Parser)
  | [] => .ok (false, p)
  | typ :: types => do
    let found ← p.check typ
    if found then do
      let (_, p) ← p.advance
      .ok (true, p)
    else matchAny p types

def term (p : Parser) : Except Panic (Expr × Parser) := do
  let (found, p) ← p.matchAny [.term]
  if found then do
    let tk ← p.previous
    .ok (.term tk.literal, p)
  else .error .unreachable

def unary : ℕ → Parser → Except Panic (Expr × Parser)
  | 0, _ => .error .fuel
  | fuel + 1, p => do
    let (found, p) ← p.matchAny [.not]
    if found then do
      let op ← p.previous
      let (rhs, p) ← unary fuel p
      .ok (.unary op rhs, p)
    else p.term

/-- The loop of `binary`. -/
def binaryLoop : ℕ → Expr → Parser → Except Panic (Expr × Parser)
  | 0, _, _ => .error .fuel
  | fuel + 1, expr, p => do
    let (found, p) ← p.matchAny [.and, .or]
    if found then do
      let op ← p.previous
      let (rhs, p) ← unary fuel p
      binaryLoop fuel (.binary expr op rhs) p
    else .ok (expr, p)

def binary (fuel : ℕ) (p : Parser) : Except Panic (Expr × Parser) := do
  let (expr, p) ← unary fuel p
  binaryLoop fuel expr p

def expression (fuel : ℕ) (p : Parser) : Except Panic (Expr × Parser) := binary fuel p

end Parser

/-- `parser.New(tokens).expression()`; every round and every call of `unary` uses up a token. -/
def parse (tokens : List Token) : Except Panic (Expr × Parser) :=
  (Parser.new tokens).expression (tokens.length + 1)

/-- What comes of a call of the parser: what it returns, and whether `error.Fail` has set `HadError`. -/
structure Outcome where
  returned : Except Panic (Expr × Parser)
  hadError : Bool

/-- None of the functions calls `error.Fail`. -/
def outcome (tokens : List Token) : Outcome := ⟨parse tokens, false⟩

/-! ## The grammar -/

def IsOp (tk : Token) : Prop := tk.typ = .and ∨ tk.typ = .or

section Grammar

variable (value : Token → Literal)

/-- `unary -> "NOT" unary | term`. -/
inductive UnaryTree : List Token → Expr → Prop
  | term {tk : Token} : tk.typ = .term → UnaryTree [tk] (.term (value tk))
  | not {op : Token} {ts : List Token} {rhs : Expr} : op.typ = .not → UnaryTree ts rhs →
      UnaryTree (op :: ts) (.unary op rhs)

/-- `( ( "AND" | "OR" ) unary )*` behind the tree `lhs`. -/
inductive RestTree : Expr → List Token → Expr → Prop
  | done {lhs : Expr} : RestTree lhs [] lhs
  | more {lhs rhs e : Expr} {op : Token} {us ts : List Token} : IsOp op → UnaryTree value us rhs →
      RestTree (.binary lhs op rhs) ts e → RestTree lhs (op :: (us ++ ts)) e

/-- `expression -> unary ( ( "AND" | "OR" ) unary )*`. -/
def ExprTree (ts : List Token) (e : Expr) : Prop :=
  ∃ us rest lhs, ts = us ++ rest ∧ UnaryTree value us lhs ∧ RestTree value lhs rest e

end Grammar

/-- The tokens are an expression of the grammar. -/
def Derivable (ts : List Token) : Prop := ∃ e, ExprTree Token.literal ts e

/-! ## Reading a token -/

namespace Parser

/-- The parser in front of `l`, behind `pre`. -/
def before (pre l : List Token) : Parser := ⟨pre ++ l, pre.length⟩

variable {pre l : List Token} {tk : Token}

theorem shift (pre l : List Token) (tk : Token) :
    (⟨pre ++ tk :: l, pre.length + 1⟩ : Parser) = before (pre ++ [tk]) l := by
  simp [before]

theorem peek_before : (before pre (tk :: l)).peek = .ok tk := by
  simp [before, peek]

theorem previous_before : (before (pre ++ [tk]) l).previous = .ok tk := by
  simp [before, previous]

theorem advance_before (h : tk.typ ≠ .eof) : (before pre (tk :: l)).advance = .ok (tk, before (pre ++ [tk]) l) := by
  have hend : (before pre (tk :: l)).isAtEnd = .ok false := by
    rw [isAtEnd, peek_before]
    exact congrArg Except.ok (decide_eq_false h)
  rw [advance, hend]
  show ((⟨pre ++ tk :: l, pre.length + 1⟩ : Parser).previous >>= fun tk' =>
    (.ok (tk', ⟨pre ++ tk :: l, pre.length + 1⟩) : Except Panic (Token × Parser))) = _
  rw [shift, previous_before]
  rfl

theorem check_before {typ : TokenType} (h : typ ≠ .eof) :
    (before pre (tk :: l)).check typ = .ok (decide (tk.typ = typ)) := by
  rw [check, isAtEnd, peek_before]
  show (if decide (tk.typ = .eof) = true then Except.ok false else Except.ok (decide (tk.typ = typ))) = _
  split_ifs with heof
  · rw [of_decide_eq_true heof, decide_eq_false (Ne.symm h)]
  · rfl

/-- Only a token of one of the types is read. -/
theorem matchAny_before {types : List TokenType} (h : .eof ∉ types) :
    (before pre (tk :: l)).matchAny types =
      if tk.typ ∈ types then .ok (true, before (pre ++ [tk]) l) else .ok (false, before pre (tk :: l)) := by
  induction types with
  | nil => rfl
  | cons typ types ih =>
    obtain ⟨h1, h2⟩ := not_or.mp (mt List.mem_cons.mpr h)
    rw [matchAny, check_before (Ne.symm h1)]
    show (if decide (tk.typ = typ) = true then
      (before pre (tk :: l)).advance >>= fun x => .ok (true, x.2) else (before pre (tk :: l)).matchAny types) = _
    by_cases heq : tk.typ = typ
    · have hne : tk.typ ≠ .eof := fun he => h1 (he.symm.trans heq)
      rw [if_pos (decide_eq_true heq), advance_before hne, if_pos (heq ▸ List.mem_cons_self)]
      rfl
    · rw [if_neg (by simpa using heq), ih h2]
      simp [heq]

theorem unary_not (fuel : ℕ) (h : tk.typ = .not) : unary (fuel + 1) (before pre (tk :: l)) =
    (unary fuel (before (pre ++ [tk]) l)).map fun x => (.unary tk x.1, x.2) := by
  rw [unary, matchAny_before (by decide), if_pos (List.mem_singleton.mpr h)]
  show ((before (pre ++ [tk]) l).previous >>= fun op => unary fuel (before (pre ++ [tk]) l) >>= fun x =>
    (.ok (.unary op x.1, x.2) : Except Panic (Expr × Parser))) = _
  rw [previous_before]
  rfl

theorem unary_term (fuel : ℕ) (h : tk.typ = .term) :
    unary (fuel + 1) (before pre (tk :: l)) = .ok (.term tk.literal, before (pre ++ [tk]) l) := by
  have hnot : tk.typ ∉ [TokenType.not] := by rw [h]; decide
  rw [unary, matchAny_before (by decide), if_neg hnot]
  show (before pre (tk :: l)).term = _
  rw [Parser.term, matchAny_before (by decide), if_pos (List.mem_singleton.mpr h)]
  show ((before (pre ++ [tk]) l).previous >>= fun tk' =>
    (.ok (.term tk'.literal, before (pre ++ [tk]) l) : Except Panic (Expr × Parser))) = _
  rw [previous_before]
  rfl

theorem unary_other (fuel : ℕ) (h1 : tk.typ ≠ .not) (h2 : tk.typ ≠ .term) :
    unary (fuel + 1) (before pre (tk :: l)) = .error .unreachable := by
  rw [unary, matchAny_before (by decide), if_neg fun h => h1 (List.mem_singleton.mp h)]
  show (before pre (tk :: l)).term = _
  rw [Parser.term, matchAny_before (by decide), if_neg fun h => h2 (List.mem_singleton.mp h)]
  rfl

theorem mem_ops : tk.typ ∈ [TokenType.and, TokenType.or] ↔ IsOp tk := by
  rw [List.mem_cons, List.mem_singleton]
  rfl

theorem binaryLoop_op (fuel : ℕ) (lhs : Expr) (h : IsOp tk) : binaryLoop (fuel + 1) lhs (before pre (tk :: l)) =
    unary fuel (before (pre ++ [tk]) l) >>= fun x => binaryLoop fuel (.binary lhs tk x.1) x.2 := by
  rw [binaryLoop, matchAny_before (by decide), if_pos (mem_ops.mpr h)]
  show ((before (pre ++ [tk]) l).previous >>= fun op => unary fuel (before (pre ++ [tk]) l) >>= fun x =>
    binaryLoop fuel (.binary lhs op x.1) x.2) = _
  rw [previous_before]
  rfl

theorem binaryLoop_stop (fuel : ℕ) (lhs : Expr) (h : ¬ IsOp tk) :
    binaryLoop (fuel + 1) lhs (before pre (tk :: l)) = .ok (lhs, before pre (tk :: l)) := by
  rw [binaryLoop, matchAny_before (by decide), if_neg fun hmem => h (mem_ops.mp hmem)]
  rfl

end Parser

/-! ## The productions -/

section Productions

variable {value value' : Token → Literal} {us us' rest rest' ts : List Token} {e e' lhs : Expr} {eof : Token}

/-- A unary expression ends where it must, and has one tree. -/
theorem UnaryTree.prefix_unique (h : UnaryTree value us e) : ∀ {us' rest rest' : List Token} {e' : Expr},
    UnaryTree value us' e' → us ++ rest = us' ++ rest' → us = us' ∧ rest = rest' ∧ e = e' := by
  induction h with
  | @term tk htk =>
    intro us' rest rest' e' h' heq
    cases h' with
    | term htk' =>
      obtain ⟨h1, h2⟩ := List.cons.inj heq
      exact ⟨by rw [h1], h2, by rw [h1]⟩
    | not hop _ =>
      obtain ⟨h1, -⟩ := List.cons.inj heq
      rw [h1, hop] at htk
      cases htk
  | @not op ts rhs hop _ ih =>
    intro us' rest rest' e' h' heq
    cases h' with
    | term htk' =>
      obtain ⟨h1, -⟩ := List.cons.inj heq
      rw [h1, htk'] at hop
      cases hop
    | not hop' h' =>
      obtain ⟨h1, h2⟩ := List.cons.inj heq
      obtain ⟨h3, h4, h5⟩ := ih h' h2
      exact ⟨by rw [h1, h3], h4, by rw [h1, h5]⟩

namespace Parser

/-- **`unary`** reads the unary expression that comes next, or panics if there is none. -/
theorem unary_spec (heof : eof.typ = .eof) : ∀ (ts pre : List Token) (fuel : ℕ), ts.length < fuel →
    (∃ us rest e, ts = us ++ rest ∧ UnaryTree Token.literal us e ∧
      unary fuel (before pre (ts ++ [eof])) = .ok (e, before (pre ++ us) (rest ++ [eof]))) ∨
    (unary fuel (before pre (ts ++ [eof])) = .error .unreachable ∧
      ∀ us rest e, ts = us ++ rest → ¬ UnaryTree Token.literal us e)
  | [], pre, fuel + 1, _ => by
    refine Or.inr ⟨unary_other fuel (by rw [heof]; decide) (by rw [heof]; decide), ?_⟩
    intro us rest e h hu
    obtain ⟨rfl, -⟩ := List.append_eq_nil_iff.mp h.symm
    cases hu
  | tk :: ts, pre, fuel + 1, hf => by
    rw [List.cons_append]
    by_cases hnot : tk.typ = .not
    · -- what follows `NOT` decides
      rw [unary_not fuel hnot]
      rcases unary_spec heof ts (pre ++ [tk]) fuel (Nat.lt_of_succ_lt_succ hf) with
        ⟨us, rest, e, h1, h2, h3⟩ | ⟨h1, h2⟩
      · refine Or.inl ⟨tk :: us, rest, .unary tk e, by rw [h1]; rfl, .not hnot h2, ?_⟩
        rw [h3, List.append_assoc]
        rfl
      · refine Or.inr ⟨by rw [h1]; rfl, ?_⟩
        intro us rest e h hu
        cases hu with
        | term htk =>
          obtain ⟨h3, -⟩ := List.cons.inj h
          rw [← h3, hnot] at htk
          cases htk
        | not hop hu =>
          obtain ⟨-, h4⟩ := List.cons.inj h
          exact h2 _ rest _ h4 hu
    · by_cases hterm : tk.typ = .term
      · rw [unary_term fuel hterm]
        exact Or.inl ⟨[tk], ts, .term tk.literal, rfl, .term hterm, rfl⟩
      · refine Or.inr ⟨unary_other fuel hnot hterm, ?_⟩
        intro us rest e h hu
        cases hu with
        | term htk =>
          obtain ⟨h3, -⟩ := List.cons.inj h
          exact hterm (h3 ▸ htk)
        | not hop hu =>
          obtain ⟨h3, -⟩ := List.cons.inj h
          exact hnot (h3 ▸ hop)

/-- **The loop of `binary`** reads operators with their right operands as long as there are any. -/
theorem binaryLoop_spec (heof : eof.typ = .eof) : ∀ (fuel : ℕ) (ts pre : List Token) (lhs : Expr),
    ts.length < fuel →
    (∃ us rest e, ts = us ++ rest ∧ RestTree Token.literal lhs us e ∧
      binaryLoop fuel lhs (before pre (ts ++ [eof])) = .ok (e, before (pre ++ us) (rest ++ [eof])) ∧
      ∀ e', RestTree Token.literal lhs ts e' → rest = []) ∨
    (binaryLoop fuel lhs (before pre (ts ++ [eof])) = .error .unreachable ∧
      ∀ e', ¬ RestTree Token.literal lhs ts e')
  | fuel + 1, [], pre, lhs, _ => by
    have hop : ¬ IsOp eof := by
      unfold IsOp
      rw [heof]
      decide
    refine Or.inl ⟨[], [], lhs, rfl, .done, ?_, fun e' _ => rfl⟩
    rw [List.nil_append, binaryLoop_stop fuel lhs hop, List.append_nil]
  | fuel + 1, tk :: ts, pre, lhs, hf => by
    rw [List.cons_append]
    by_cases hop : IsOp tk
    · rw [binaryLoop_op fuel lhs hop]
      rcases unary_spec heof ts (pre ++ [tk]) fuel (Nat.lt_of_succ_lt_succ hf) with
        ⟨us, rest, rhs, h1, h2, h3⟩ | ⟨h1, h2⟩
      · rw [h3]
        show (∃ us' rest' e, _ ∧ _ ∧ binaryLoop fuel (.binary lhs tk rhs) (before _ (rest ++ [eof])) = _ ∧ _) ∨
          binaryLoop fuel (.binary lhs tk rhs) (before _ (rest ++ [eof])) = _ ∧ _
        have hlen : rest.length < fuel := by
          rw [h1, List.length_cons, List.length_append] at hf
          omega
        -- the rest of a derivation starts behind the same operand
        have hrest : ∀ e', RestTree Token.literal lhs (tk :: ts) e' →
            RestTree Token.literal (.binary lhs tk rhs) rest e' := by
          intro e' h
          cases h with
          | more _ hu hr =>
            obtain ⟨-, h4, h5⟩ := hu.prefix_unique h2 h1
            rw [← h4, ← h5]
            exact hr
        rcases binaryLoop_spec heof fuel rest (pre ++ [tk] ++ us) (.binary lhs tk rhs) hlen with
          ⟨us', rest', e, h4, h5, h6, h7⟩ | ⟨h4, h5⟩
        · refine Or.inl ⟨tk :: (us ++ us'), rest', e, ?_, .more hop h2 h5, ?_, fun e' h => h7 e' (hrest e' h)⟩
          · rw [h1, h4, List.cons_append, List.append_assoc]
          · rw [h6]
            simp
        · exact Or.inr ⟨h4, fun e' h => h5 e' (hrest e' h)⟩
      · refine Or.inr ⟨by rw [h1]; rfl, ?_⟩
        intro e' h
        cases h with
        | more _ hu hr => exact h2 _ _ _ rfl hu
    · refine Or.inl ⟨[], tk :: ts, lhs, rfl, .done, ?_, ?_⟩
      · rw [binaryLoop_stop fuel lhs hop, List.append_nil, List.cons_append]
      · intro e' h
        cases h with
        | more hop' _ _ => exact absurd hop' hop

end Parser

/-! ## The whole parser -/

/-- **`expression`** reads a part of the tokens that the grammar allows, and the tokens are an expression only
if that is all of them; or it panics, and they are none. -/
theorem parse_spec (heof : eof.typ = .eof) (ts : List Token) :
    (∃ us rest e, ts = us ++ rest ∧ ExprTree Token.literal us e ∧
      parse (ts ++ [eof]) = .ok (e, ⟨ts ++ [eof], us.length⟩) ∧ (Derivable ts → rest = [])) ∨
    (parse (ts ++ [eof]) = .error .unreachable ∧ ¬ Derivable ts) := by
  have hparse : parse (ts ++ [eof]) = Parser.unary (ts.length + 2) (Parser.before [] (ts ++ [eof])) >>=
      fun x => Parser.binaryLoop (ts.length + 2) x.1 x.2 := by
    rw [parse, List.length_append]
    rfl
  rw [hparse]
  rcases Parser.unary_spec heof ts [] (ts.length + 2) (by omega) with ⟨us, rest, e, h1, h2, h3⟩ | ⟨h1, h2⟩
  · rw [h3]
    show (∃ us' rest' e', _ ∧ _ ∧ Parser.binaryLoop _ e (Parser.before _ (rest ++ [eof])) = _ ∧ _) ∨
      Parser.binaryLoop _ e (Parser.before _ (rest ++ [eof])) = _ ∧ _
    have hrest : Derivable ts → ∃ e', RestTree Token.literal e rest e' := by
      rintro ⟨e', us', rest', lhs, h4, h5, h6⟩
      obtain ⟨-, h7, h8⟩ := h5.prefix_unique h2 (h4.symm.trans h1)
      exact ⟨e', by rw [← h7, ← h8]; exact h6⟩
    have hlen : rest.length < ts.length + 2 := by
      rw [h1, List.length_append]
      omega
    rcases Parser.binaryLoop_spec heof (ts.length + 2) rest ([] ++ us) e hlen with
      ⟨us', rest', e', h4, h5, h6, h7⟩ | ⟨h4, h5⟩
    · refine Or.inl ⟨us ++ us', rest', e', by rw [h1, h4, List.append_assoc], ⟨us, us', e, rfl, h2, h5⟩, ?_, ?_⟩
      · rw [h6, h1, h4]
        simp [Parser.before]
      · intro hd
        obtain ⟨e'', he⟩ := hrest hd
        exact h7 e'' he
    · refine Or.inr ⟨h4, fun hd => ?_⟩
      obtain ⟨e', he⟩ := hrest hd
      exact h5 e' he
  · refine Or.inr ⟨by rw [h1]; rfl, ?_⟩
    rintro ⟨e', us', rest', lhs, h4, h5, -⟩
    exact h2 us' rest' lhs h4 h5

end Productions

/-! ## The values of the terms -/

/-- The values of the terms of a tree, from left to right. -/
def Expr.values : Expr → List Literal
  | .unary _ rhs => rhs.values
  | .binary lhs _ rhs => lhs.values ++ rhs.values
  | .term value => [value]

section Values

variable {value : Token → Literal} {us ts : List Token} {e lhs : Expr}

theorem UnaryTree.values (h : UnaryTree value us e) : ∃ tk ∈ us, e.values = [value tk] := by
  induction h with
  | @term tk _ => exact ⟨tk, List.mem_cons_self, rfl⟩
  | not _ _ ih =>
    obtain ⟨tk, h1, h2⟩ := ih
    exact ⟨tk, List.mem_cons_of_mem _ h1, h2⟩

theorem RestTree.values (h : RestTree value lhs ts e) : ∃ l, e.values = lhs.values ++ l := by
  induction h with
  | @done lhs => exact ⟨[], (List.append_nil lhs.values).symm⟩
  | @more lhs rhs e op us ts _ _ _ ih =>
    obtain ⟨l, hl⟩ := ih
    exact ⟨rhs.values ++ l, by rw [hl, Expr.values, List.append_assoc]⟩

theorem UnaryTree.congr {value' : Token → Literal} (h : UnaryTree value us e) :
    (∀ tk ∈ us, value tk = value' tk) → UnaryTree value' us e := by
  induction h with
  | @term tk htk =>
    intro hv
    rw [hv tk List.mem_cons_self]
    exact .term htk
  | not hop _ ih =>
    intro hv
    exact .not hop (ih fun tk htk => hv tk (List.mem_cons_of_mem _ htk))

theorem RestTree.congr {value' : Token → Literal} (h : RestTree value lhs ts e) :
    (∀ tk ∈ ts, value tk = value' tk) → RestTree value' lhs ts e := by
  induction h with
  | done => exact fun _ => .done
  | more hop hu _ ih =>
    intro hv
    refine .more hop (hu.congr fun tk htk => ?_) (ih fun tk htk => ?_)
    · exact hv tk (List.mem_cons_of_mem _ (List.mem_append_left _ htk))
    · exact hv tk (List.mem_cons_of_mem _ (List.mem_append_right _ htk))

/-- Only the values of the tokens matter. -/
theorem ExprTree.congr {value' : Token → Literal} (h : ExprTree value ts e)
    (hv : ∀ tk ∈ ts, value tk = value' tk) : ExprTree value' ts e := by
  obtain ⟨us, rest, lhs, rfl, h1, h2⟩ := h
  exact ⟨us, rest, lhs, rfl, h1.congr fun tk htk => hv tk (List.mem_append_left _ htk),
    h2.congr fun tk htk => hv tk (List.mem_append_right _ htk)⟩

/-- The first term of an expression has the value of one of the tokens. -/
theorem ExprTree.values (h : ExprTree value ts e) : ∃ tk l, tk ∈ ts ∧ e.values = value tk :: l := by
  obtain ⟨us, rest, lhs, rfl, h1, h2⟩ := h
  obtain ⟨tk, h3, h4⟩ := h1.values
  obtain ⟨l, hl⟩ := h2.values
  exact ⟨tk, l, List.mem_append_left _ h3, by rw [hl, h4]; rfl⟩

end Values

/-! ## What the parser does with scanned tokens -/

section Scanned

variable {eof : Token} {ts : List Token}

/-- The parser reads exactly the expressions of the grammar to their end. -/
theorem accepts_iff (heof : eof.typ = .eof) (ts : List Token) :
    (∃ e p, parse (ts ++ [eof]) = .ok (e, p) ∧ p.current = ts.length) ↔ Derivable ts := by
  rcases parse_spec heof ts with ⟨us, rest, e, h1, h2, h3, h4⟩ | ⟨h1, h2⟩
  · constructor
    · rintro ⟨e', p, h5, h6⟩
      rw [h3] at h5
      obtain ⟨rfl, rfl⟩ := Prod.mk.inj (Except.ok.inj h5)
      have hlen : us.length = us.length + rest.length := by rw [← List.length_append, ← h1]; exact h6
      obtain rfl : rest = [] := List.length_eq_zero_iff.mp (by omega)
      rw [List.append_nil] at h1
      exact ⟨e, h1 ▸ h2⟩
    · intro hd
      rw [h4 hd, List.append_nil] at h1
      exact ⟨e, _, h3, by rw [h1]⟩
  · refine iff_of_false ?_ h2
    rintro ⟨e, p, h3, -⟩
    rw [h1] at h3
    cases h3

/-- The tree of what is read to its end. -/
theorem tree_of_accepts (heof : eof.typ = .eof) (hts : ∀ tk ∈ ts, tk.literal = .nil) {e : Expr} {p : Parser}
    (h : parse (ts ++ [eof]) = .ok (e, p)) (hp : p.current = ts.length) : ExprTree (fun _ => .nil) ts e := by
  rcases parse_spec heof ts with ⟨us, rest, e', h1, h2, h3, h4⟩ | ⟨h1, -⟩
  · have hd := (accepts_iff heof ts).mp ⟨e, p, h, hp⟩
    rw [h3] at h
    obtain ⟨rfl, -⟩ := Prod.mk.inj (Except.ok.inj h)
    rw [h4 hd, List.append_nil] at h1
    exact (h1 ▸ h2).congr hts
  · rw [h1] at h
    cases h

/-- Other tokens make it panic or stop early. -/
theorem of_not_derivable (heof : eof.typ = .eof) (h : ¬ Derivable ts) :
    parse (ts ++ [eof]) = .error .unreachable ∨
      ∃ e p, parse (ts ++ [eof]) = .ok (e, p) ∧ p.current < ts.length := by
  rcases parse_spec heof ts with ⟨us, rest, e, h1, h2, h3, -⟩ | ⟨h1, -⟩
  · refine Or.inr ⟨e, _, h3, ?_⟩
    have hrest : rest ≠ [] := by
      rintro rfl
      rw [List.append_nil] at h1
      exact h ⟨e, h1 ▸ h2⟩
    have hpos := List.length_pos_iff.mpr hrest
    rw [h1, List.length_append]
    exact Nat.lt_add_of_pos_right hpos
  · exact Or.inl h1

end Scanned

/-- Without an error, all tokens before the last one have been read. -/
def Outcome.Accepts (o : Outcome) (tokens : List Token) (e : Expr) : Prop :=
  o.hadError = false ∧ ∃ p, o.returned = .ok (e, p) ∧ p.current = tokens.dropLast.length

/-- What should come of a token list that ends in `Eof`: the expressions of the grammar are accepted, with their
left-associative trees and the texts of the terms, and for other tokens an error is reported, without a panic. -/
structure Outcome.Meets (o : Outcome) (tokens : List Token) : Prop where
  accepts : (∃ e, o.Accepts tokens e) ↔ Derivable tokens.dropLast
  tree : ∀ e, o.Accepts tokens e → ExprTree (fun tk => .text tk.lexeme) tokens.dropLast e
  rejects : ¬ Derivable tokens.dropLast → o.hadError = true ∧ ∀ x, o.returned ≠ .error x

/-- A tree whose terms are all `nil` is not the tree with their texts. -/
theorem not_meets_of_literal {eof : Token} {ts : List Token} (heof : eof.typ = .eof)
    (hts : ∀ tk ∈ ts, tk.literal = .nil) : ¬ (outcome (ts ++ [eof])).Meets (ts ++ [eof]) := by
  rintro ⟨h1, h2, h3⟩
  unfold Outcome.Accepts at h1 h2
  rw [List.dropLast_concat] at h1 h2 h3
  by_cases hd : Derivable ts
  · obtain ⟨e, h, p, h4, h5⟩ := h1.mpr hd
    obtain ⟨tk, l, -, h6⟩ := (h2 e ⟨h, p, h4, h5⟩).values
    obtain ⟨tk', l', -, h7⟩ := (tree_of_accepts heof hts h4 h5).values
    rw [h6] at h7
    cases (List.cons.inj h7).1
  · exact absurd (h3 hd).1 Bool.false_ne_true

/-- **The parser never does what it should** on the tokens of a source.  It does read exactly the expressions of
the grammar to their end, and builds their left-associative trees, but all terms have the value `nil`; with
other tokens it panics or stops early, and reports nothing. -/
theorem not_meets (source : List Char) : ∃ ts eof, (Scanner.new source).scanTokens = some (ts ++ [eof]) ∧
    ¬ (outcome (ts ++ [eof])).Meets (ts ++ [eof]) ∧
    ((∃ e p, parse (ts ++ [eof]) = .ok (e, p) ∧ p.current = ts.length) ↔ Derivable ts) ∧
    (∀ e p, parse (ts ++ [eof]) = .ok (e, p) → p.current = ts.length → ExprTree (fun _ => .nil) ts e) ∧
    (¬ Derivable ts → (outcome (ts ++ [eof])).hadError = false ∧ (parse (ts ++ [eof]) = .error .unreachable ∨
      ∃ e p, parse (ts ++ [eof]) = .ok (e, p) ∧ p.current < ts.length)) := by
  obtain ⟨ts, line, h1, h2⟩ := scanTokens_spec source
  have hts : ∀ tk ∈ ts, tk.literal = .nil := fun tk htk => (h1 tk htk).literal
  exact ⟨ts, ⟨.eof, [], .nil, line⟩, h2, not_meets_of_literal rfl hts, accepts_iff rfl ts,
    fun e p => tree_of_accepts rfl hts, fun hd => ⟨rfl, of_not_derivable rfl hd⟩⟩

/-- `hello` is one term, and its value is `nil`. -/
theorem not_meets_hello :
    ¬ ∃ tokens, (Scanner.new "hello".toList).scanTokens = some tokens ∧ (outcome tokens).Meets tokens := by
  rintro ⟨tokens, h1, h2⟩
  have hscan : (Scanner.new "hello".toList).scanTokens =
      some ([⟨.term, "hello".toList, .nil, 1⟩] ++ [⟨.eof, [], .nil, 1⟩]) := by decide
  rw [hscan] at h1
  obtain rfl := Option.some.inj h1
  refine not_meets_of_literal rfl (fun tk htk => ?_) h2
  rw [List.mem_singleton.mp htk]

/-- A missing term. -/
example : parse [⟨.term, "hello".toList, .nil, 1⟩, ⟨.and, "AND".toList, .nil, 1⟩, ⟨.eof, [], .nil, 1⟩] =
    .error .unreachable := by rfl

end Csapp.Parsing
