import Csapp.Lib.Fuel

/-!
# Eval14.Parse — the expressions and their parser

`Parse` reads tokens: identifiers, numbers and single runes; what is left is the state of the lexer, and its first
token the lookahead.  `Binary`, `Unary`, `Primary` and `Args` are the grammar: `Binary p` are the expressions whose
operators outside of parentheses have the precedence `p` at least, where the operator of the lowest precedence that
stands furthest to the right is the root.
-/

namespace Csapp.Eval14

open Csapp.Lib

/-! ## ast.go -/

inductive Expr (α : Type)
  | var (name : String)
  | literal (value : α)
  | unary (op : Char) (x : Expr α)
  | binary (op : Char) (x y : Expr α)
  | call (fn : String) (args : List (Expr α))

/-! ## parse.go -/

inductive Token
  | ident (text : String)
  | number (text : String)
  | rune (c : Char)
  deriving DecidableEq

/-- What the package uses of `strconv` and `fmt`: to read a number, and to quote a rune. -/
structure Conv (α : Type) where
  parseFloat : String → Except String α
  quote : Char → String

/-- What a call panics with; `fuel` is none of the code's. -/
inductive Panic
  | lexPanic (msg : String)
  | fuel
  deriving DecidableEq

variable {α : Type}

def precedence (op : Char) : ℕ :=
  if op = '*' ∨ op = '/' then 2 else if op = '+' ∨ op = '-' then 1 else 0

/-- `precedence(lex.token)`. -/
def tokenPrecedence : List Token → ℕ
  | .rune op :: _ => precedence op
  | _ => 0

def describe (conv : Conv α) : List Token → String
  | [] => "end of file"
  | .ident text :: _ => "identifier " ++ text
  | .number text :: _ => "number " ++ text
  | .rune c :: _ => conv.quote c

/-- The tokens behind `c`, where `c` is the next one. -/
def accept (c : Char) : List Token → Option (List Token)
  | .rune d :: ts => if d = c then some ts else none
  | _ => none

/-- `if lex.token != ')' { panic }`, and `lex.next()`. -/
def expectParen (conv : Conv α) (ts : List Token) : Except Panic (List Token) :=
  match accept ')' ts with
  | some rest => .ok rest
  | none => .error (.lexPanic ("got " ++ describe conv ts ++ ", want ')'"))

section Parser

variable (conv : Conv α)

mutual

def parseBinary : ℕ → ℕ → List Token → Except Panic (Expr α × List Token)
  | 0, _, _ => .error .fuel
  | fuel + 1, prec1, ts => do
    let (lhs, ts) ← parseUnary fuel ts
    binaryLoop fuel (tokenPrecedence ts) prec1 lhs ts

/-- The two loops of `parseBinary`, in a round at `prec`. -/
def binaryLoop : ℕ → ℕ → ℕ → Expr α → List Token → Except Panic (Expr α × List Token)
  | 0, _, _, _, _ => .error .fuel
  | fuel + 1, prec, prec1, lhs, ts =>
    if prec1 ≤ prec then
      match ts with
      | .rune op :: rest =>
        if precedence op = prec then do
          let (rhs, ts) ← parseBinary fuel (prec + 1) rest
          binaryLoop fuel prec prec1 (.binary op lhs rhs) ts
        else binaryLoop fuel (prec - 1) prec1 lhs ts
      | _ => binaryLoop fuel (prec - 1) prec1 lhs ts
    else .ok (lhs, ts)

def parseUnary : ℕ → List Token → Except Panic (Expr α × List Token)
  | 0, _ => .error .fuel
  | fuel + 1, ts =>
    match ts with
    | .rune op :: rest =>
      if op = '+' ∨ op = '-' then do
        let (x, ts) ← parseUnary fuel rest
        .ok (.unary op x, ts)
      else parsePrimary fuel ts
    | _ => parsePrimary fuel ts

def parsePrimary : ℕ → List Token → Except Panic (Expr α × List Token)
  | 0, _ => .error .fuel
  | fuel + 1, ts =>
    match ts with
    | .ident id :: rest =>
      match accept '(' rest with
      | none => .ok (.var id, rest)
      | some rest =>
        match accept ')' rest with
        | some rest => .ok (.call id [], rest)
        | none => do
          let (args, ts) ← parseArgs fuel rest
          let ts ← expectParen conv ts
          .ok (.call id args, ts)
    | .number text :: rest =>
      match conv.parseFloat text with
      | .ok f => .ok (.literal f, rest)
      | .error err => .error (.lexPanic err)
    | .rune c :: rest =>
      if c = '(' then do
        let (e, ts) ← parseBinary fuel 1 rest
        let ts ← expectParen conv ts
        .ok (e, ts)
      else .error (.lexPanic ("unexpected " ++ describe conv ts))
    | [] => .error (.lexPanic ("unexpected " ++ describe conv ts))

/-- The loop over the arguments of a call. -/
def parseArgs : ℕ → List Token → Except Panic (List (Expr α) × List Token)
  | 0, _ => .error .fuel
  | fuel + 1, ts => do
    let (arg, ts) ← parseBinary fuel 1 ts
    match accept ',' ts with
    | some rest =>
      let (args, ts) ← parseArgs fuel rest
      .ok (arg :: args, ts)
    | none => .ok ([arg], ts)

end

/-- A call is at most four calls deeper than one that has a token more. -/
def parseFuel (ts : List Token) : ℕ := 4 * ts.length + 4

/-- `Parse`, from the tokens on. -/
def Parse (ts : List Token) : Except Panic (Expr α) := do
  let (e, rest) ← parseBinary conv (parseFuel ts) 1 ts
  match rest with
  | [] => .ok e
  | _ => .error (.lexPanic ("unexpected " ++ describe conv rest))

end Parser

/-! ## The grammar -/

section Grammar

variable (conv : Conv α)

mutual

inductive Binary : ℕ → Expr α → List Token → Prop
  | unary {p : ℕ} {e : Expr α} {ts : List Token} : Unary e ts → Binary p e ts
  | op {p : ℕ} {op : Char} {x y : Expr α} {xs ys : List Token} : p ≤ precedence op → 0 < precedence op →
      Binary (precedence op) x xs → Binary (precedence op + 1) y ys →
      Binary p (.binary op x y) (xs ++ .rune op :: ys)

inductive Unary : Expr α → List Token → Prop
  | op {op : Char} {x : Expr α} {ts : List Token} : op = '+' ∨ op = '-' → Unary x ts →
      Unary (.unary op x) (.rune op :: ts)
  | primary {e : Expr α} {ts : List Token} : Primary e ts → Unary e ts

inductive Primary : Expr α → List Token → Prop
  | var {id : String} : Primary (.var id) [.ident id]
  | literal {text : String} {f : α} : conv.parseFloat text = .ok f → Primary (.literal f) [.number text]
  | paren {e : Expr α} {ts : List Token} : Binary 1 e ts → Primary e (.rune '(' :: (ts ++ [.rune ')']))
  | call {id : String} {args : List (Expr α)} {ts : List Token} : Args args ts →
      Primary (.call id args) (.ident id :: .rune '(' :: (ts ++ [.rune ')']))
  | callNil {id : String} : Primary (.call id []) [.ident id, .rune '(', .rune ')']

/-- One argument, or more with commas between. -/
inductive Args : List (Expr α) → List Token → Prop
  | one {e : Expr α} {ts : List Token} : Binary 1 e ts → Args [e] ts
  | cons {e : Expr α} {es : List (Expr α)} {ts us : List Token} : Binary 1 e ts → Args es us →
      Args (e :: es) (ts ++ .rune ',' :: us)

end

end Grammar

/-! ## More fuel -/

section Fuel

variable (conv : Conv α)

structure Approximates (f g : ℕ) : Prop where
  binary : ∀ p ts, Approx Panic.fuel (parseBinary conv f p ts) (parseBinary conv g p ts)
  loop : ∀ prec p lhs ts, Approx Panic.fuel (binaryLoop conv f prec p lhs ts) (binaryLoop conv g prec p lhs ts)
  unary : ∀ ts, Approx Panic.fuel (parseUnary conv f ts) (parseUnary conv g ts)
  primary : ∀ ts, Approx Panic.fuel (parsePrimary conv f ts) (parsePrimary conv g ts)
  args : ∀ ts, Approx Panic.fuel (parseArgs conv f ts) (parseArgs conv g ts)

theorem approximates_succ (fuel : ℕ) : Approximates conv fuel (fuel + 1) := by
  induction fuel with
  | zero =>
    refine ⟨fun _ _ => ?_, fun _ _ _ _ => ?_, fun _ => ?_, fun _ => ?_, fun _ => ?_⟩
    · rw [parseBinary]
      exact .of_out
    · rw [binaryLoop]
      exact .of_out
    · rw [parseUnary]
      exact .of_out
    · rw [parsePrimary]
      exact .of_out
    · rw [parseArgs]
      exact .of_out
  | succ fuel ih =>
    refine ⟨fun p ts => ?_, fun prec p lhs ts => ?_, fun ts => ?_, fun ts => ?_, fun ts => ?_⟩
    · rw [parseBinary, parseBinary]
      exact (ih.unary ts).bind fun x => ih.loop _ _ _ _
    · unfold binaryLoop
      refine Approx.ite ?_ (.refl _ _)
      cases ts with
      | nil => exact ih.loop _ _ _ _
      | cons t rest =>
        cases t with
        | rune op => exact Approx.ite ((ih.binary _ _).bind fun x => ih.loop _ _ _ _) (ih.loop _ _ _ _)
        | ident => exact ih.loop _ _ _ _
        | number => exact ih.loop _ _ _ _
    · unfold parseUnary
      cases ts with
      | nil => exact ih.primary _
      | cons t rest =>
        cases t with
        | rune op => exact Approx.ite ((ih.unary _).bind fun x => .refl _ _) (ih.primary _)
        | ident => exact ih.primary _
        | number => exact ih.primary _
    · unfold parsePrimary
      cases ts with
      | nil => exact .refl _ _
      | cons t rest =>
        cases t with
        | rune c => exact Approx.ite ((ih.binary _ _).bind fun x => .refl _ _) (.refl _ _)
        | ident id =>
          dsimp only
          cases accept '(' rest with
          | none => exact .refl _ _
          | some rest =>
            dsimp only
            cases accept ')' rest with
            | none => exact (ih.args _).bind fun x => .refl _ _
            | some rest => exact .refl _ _
        | number => exact .refl _ _
    · unfold parseArgs
      refine (ih.binary _ _).bind fun x => ?_
      dsimp only
      cases accept ',' x.2 with
      | none => exact .refl _ _
      | some rest => exact (ih.args _).bind fun y => .refl _ _

theorem approximates_of_le {f g : ℕ} (h : f ≤ g) : Approximates conv f g where
  binary p ts := .of_le (f := fun n => parseBinary conv n p ts) (fun n => (approximates_succ conv n).binary p ts) h
  loop prec p lhs ts :=
    .of_le (f := fun n => binaryLoop conv n prec p lhs ts) (fun n => (approximates_succ conv n).loop prec p lhs ts) h
  unary ts := .of_le (f := fun n => parseUnary conv n ts) (fun n => (approximates_succ conv n).unary ts) h
  primary ts := .of_le (f := fun n => parsePrimary conv n ts) (fun n => (approximates_succ conv n).primary ts) h
  args ts := .of_le (f := fun n => parseArgs conv n ts) (fun n => (approximates_succ conv n).args ts) h

end Fuel

/-! ## What the parser reads -/

section Sound

variable {conv : Conv α} {p q : ℕ} {e lhs : Expr α} {es : List (Expr α)} {ts rest : List Token}

theorem precedence_le_two (op : Char) : precedence op ≤ 2 := by
  unfold precedence
  split
  · exact Nat.le_refl 2
  · split
    · exact Nat.le_succ 1
    · exact Nat.zero_le 2

theorem tokenPrecedence_le_two (ts : List Token) : tokenPrecedence ts ≤ 2 := by
  cases ts with
  | nil => exact Nat.zero_le 2
  | cons t ts =>
    cases t with
    | rune op => exact precedence_le_two op
    | ident | number => exact Nat.zero_le 2

theorem of_accept {c : Char} (h : accept c ts = some rest) : ts = .rune c :: rest := by
  unfold accept at h
  split at h
  · obtain ⟨rfl, h⟩ := Option.ite_none_right_eq_some.mp h
    rw [if_pos rfl] at h
    rw [Option.some.inj h]
  · cases h

theorem accept_rune (c : Char) (ts : List Token) : accept c (.rune c :: ts) = some ts := if_pos rfl

theorem of_expectParen (h : expectParen conv ts = .ok rest) : ts = .rune ')' :: rest := by
  unfold expectParen at h
  split at h
  · obtain rfl := Except.ok.inj h
    exact of_accept ‹_›
  · cases h

theorem Binary.mono (h : Binary conv p e ts) (hq : q ≤ p) : Binary conv q e ts := by
  cases h with
  | unary h => exact .unary h
  | op hp hop hx hy => exact .op (Nat.le_trans hq hp) hop hx hy

/-- What each call reads is what the grammar says, and `parseBinary` stops at an operator of lower precedence. -/
structure Sound (conv : Conv α) (fuel : ℕ) : Prop where
  binary : ∀ {p ts e rest}, 0 < p → parseBinary conv fuel p ts = .ok (e, rest) →
    ∃ used, ts = used ++ rest ∧ Binary conv p e used ∧ tokenPrecedence rest < p
  loop : ∀ {prec p lhs ts e rest pre}, 0 < p → tokenPrecedence ts ≤ prec → Binary conv (max prec p) lhs pre →
    binaryLoop conv fuel prec p lhs ts = .ok (e, rest) →
    ∃ used, ts = used ++ rest ∧ Binary conv p e (pre ++ used) ∧ tokenPrecedence rest < p
  unary : ∀ {ts e rest}, parseUnary conv fuel ts = .ok (e, rest) → ∃ used, ts = used ++ rest ∧ Unary conv e used
  primary : ∀ {ts e rest}, parsePrimary conv fuel ts = .ok (e, rest) →
    ∃ used, ts = used ++ rest ∧ Primary conv e used
  args : ∀ {ts es rest}, parseArgs conv fuel ts = .ok (es, rest) → ∃ used, ts = used ++ rest ∧ Args conv es used

variable {fuel : ℕ}

theorem Sound.binary_succ (ih : Sound conv fuel) (hp : 0 < p) (h : parseBinary conv (fuel + 1) p ts = .ok (e, rest)) :
    ∃ used, ts = used ++ rest ∧ Binary conv p e used ∧ tokenPrecedence rest < p := by
  rw [parseBinary] at h
  obtain ⟨⟨lhs, ts'⟩, hlhs, hloop⟩ := bind_eq_ok.mp h
  obtain ⟨used, rfl, hunary⟩ := ih.unary hlhs
  obtain ⟨used', rfl, hbinary, hstop⟩ := ih.loop hp (Nat.le_refl _) (.unary hunary) hloop
  exact ⟨used ++ used', (List.append_assoc _ _ _).symm, hbinary, hstop⟩

theorem Sound.loop_succ (ih : Sound conv fuel) {prec : ℕ} {pre : List Token} (hp : 0 < p)
    (hts : tokenPrecedence ts ≤ prec) (hlhs : Binary conv (max prec p) lhs pre)
    (h : binaryLoop conv (fuel + 1) prec p lhs ts = .ok (e, rest)) :
    ∃ used, ts = used ++ rest ∧ Binary conv p e (pre ++ used) ∧ tokenPrecedence rest < p := by
  unfold binaryLoop at h
  by_cases hle : p ≤ prec
  · rw [if_pos hle] at h
    rw [Nat.max_eq_left hle] at hlhs
    have hdown : binaryLoop conv fuel (prec - 1) p lhs ts = .ok (e, rest) → tokenPrecedence ts ≠ prec →
        ∃ used, ts = used ++ rest ∧ Binary conv p e (pre ++ used) ∧ tokenPrecedence rest < p := fun h hne =>
      ih.loop hp (by omega) (hlhs.mono (by omega)) h
    cases ts with
    | nil => exact hdown h (by rw [tokenPrecedence.eq_def]; dsimp only; omega)
    | cons t ts =>
      cases t with
      | ident => exact hdown h (by rw [tokenPrecedence.eq_def]; dsimp only; omega)
      | number => exact hdown h (by rw [tokenPrecedence.eq_def]; dsimp only; omega)
      | rune op =>
        dsimp only at h
        by_cases hop : precedence op = prec
        · rw [if_pos hop] at h
          obtain ⟨⟨rhs, ts'⟩, hrhs, hloop⟩ := bind_eq_ok.mp h
          obtain ⟨used, rfl, hbinary, hstop⟩ := ih.binary (Nat.succ_pos prec) hrhs
          subst hop
          have hnode := Binary.op (Nat.le_refl _) (by omega) hlhs hbinary
          rw [← Nat.max_eq_left hle] at hnode
          obtain ⟨used', rfl, hbinary', hstop'⟩ := ih.loop hp (Nat.le_of_lt_succ hstop) hnode hloop
          refine ⟨.rune op :: (used ++ used'), ?_, ?_, hstop'⟩
          · rw [List.cons_append, List.append_assoc]
          · rw [List.append_assoc] at hbinary'
            exact hbinary'
        · rw [if_neg hop] at h
          exact hdown h hop
  · rw [if_neg hle] at h
    obtain ⟨rfl, rfl⟩ := Prod.mk.inj (Except.ok.inj h)
    rw [Nat.max_eq_right (by omega)] at hlhs
    exact ⟨[], rfl, by rwa [List.append_nil], by omega⟩

theorem Sound.unary_succ (ih : Sound conv fuel) (h : parseUnary conv (fuel + 1) ts = .ok (e, rest)) :
    ∃ used, ts = used ++ rest ∧ Unary conv e used := by
  unfold parseUnary at h
  have hdown : parsePrimary conv fuel ts = .ok (e, rest) → ∃ used, ts = used ++ rest ∧ Unary conv e used :=
    fun h => by
      obtain ⟨used, hts, hprimary⟩ := ih.primary h
      exact ⟨used, hts, .primary hprimary⟩
  cases ts with
  | nil => exact hdown h
  | cons t ts =>
    cases t with
    | ident => exact hdown h
    | number => exact hdown h
    | rune op =>
      dsimp only at h
      by_cases hop : op = '+' ∨ op = '-'
      · rw [if_pos hop] at h
        obtain ⟨⟨x, ts'⟩, hx, hend⟩ := bind_eq_ok.mp h
        obtain ⟨rfl, rfl⟩ := Prod.mk.inj (Except.ok.inj hend)
        obtain ⟨used, rfl, hunary⟩ := ih.unary hx
        exact ⟨.rune op :: used, rfl, .op hop hunary⟩
      · rw [if_neg hop] at h
        exact hdown h

theorem Sound.primary_succ (ih : Sound conv fuel) (h : parsePrimary conv (fuel + 1) ts = .ok (e, rest)) :
    ∃ used, ts = used ++ rest ∧ Primary conv e used := by
  unfold parsePrimary at h
  cases ts with
  | nil => cases h
  | cons t ts =>
    cases t with
    | ident id =>
      dsimp only at h
      cases hparen : accept '(' ts with
      | none =>
        rw [hparen] at h
        obtain ⟨rfl, rfl⟩ := Prod.mk.inj (Except.ok.inj h)
        exact ⟨[.ident id], rfl, .var⟩
      | some ts' =>
        rw [hparen] at h
        obtain rfl := of_accept hparen
        dsimp only at h
        cases hclose : accept ')' ts' with
        | some ts'' =>
          rw [hclose] at h
          obtain rfl := of_accept hclose
          obtain ⟨rfl, rfl⟩ := Prod.mk.inj (Except.ok.inj h)
          exact ⟨[.ident id, .rune '(', .rune ')'], rfl, .callNil⟩
        | none =>
          rw [hclose] at h
          obtain ⟨⟨args, us⟩, hcall, h⟩ := bind_eq_ok.mp h
          obtain ⟨vs, hvs, hend⟩ := bind_eq_ok.mp h
          obtain ⟨rfl, rfl⟩ := Prod.mk.inj (Except.ok.inj hend)
          obtain ⟨used, rfl, hargs⟩ := ih.args hcall
          obtain rfl := of_expectParen hvs
          refine ⟨.ident id :: .rune '(' :: (used ++ [.rune ')']), ?_, .call hargs⟩
          rw [List.cons_append, List.cons_append, List.append_assoc]
          rfl
    | number text =>
      dsimp only at h
      cases hf : conv.parseFloat text with
      | error err =>
        rw [hf] at h
        cases h
      | ok f =>
        rw [hf] at h
        obtain ⟨rfl, rfl⟩ := Prod.mk.inj (Except.ok.inj h)
        exact ⟨[.number text], rfl, .literal hf⟩
    | rune c =>
      dsimp only at h
      by_cases hc : c = '('
      · rw [if_pos hc] at h
        obtain ⟨⟨e', us⟩, hcall, h⟩ := bind_eq_ok.mp h
        obtain ⟨vs, hvs, hend⟩ := bind_eq_ok.mp h
        obtain ⟨rfl, rfl⟩ := Prod.mk.inj (Except.ok.inj hend)
        obtain ⟨used, rfl, hbinary, -⟩ := ih.binary Nat.one_pos hcall
        obtain rfl := of_expectParen hvs
        refine ⟨.rune '(' :: (used ++ [.rune ')']), ?_, .paren hbinary⟩
        rw [hc, List.cons_append, List.append_assoc]
        rfl
      · rw [if_neg hc] at h
        cases h

theorem Sound.args_succ (ih : Sound conv fuel) (h : parseArgs conv (fuel + 1) ts = .ok (es, rest)) :
    ∃ used, ts = used ++ rest ∧ Args conv es used := by
  rw [parseArgs] at h
  obtain ⟨⟨arg, us⟩, harg, hrest⟩ := bind_eq_ok.mp h
  obtain ⟨used, rfl, hbinary, -⟩ := ih.binary Nat.one_pos harg
  dsimp only at hrest
  cases hcomma : accept ',' us with
  | none =>
    rw [hcomma] at hrest
    obtain ⟨rfl, rfl⟩ := Prod.mk.inj (Except.ok.inj hrest)
    exact ⟨used, rfl, .one hbinary⟩
  | some us' =>
    rw [hcomma] at hrest
    obtain rfl := of_accept hcomma
    obtain ⟨⟨args, vs⟩, hcall, hend⟩ := bind_eq_ok.mp hrest
    obtain ⟨rfl, rfl⟩ := Prod.mk.inj (Except.ok.inj hend)
    obtain ⟨used', rfl, hargs⟩ := ih.args hcall
    refine ⟨used ++ .rune ',' :: used', ?_, .cons hbinary hargs⟩
    rw [List.append_assoc]
    rfl

theorem sound (conv : Conv α) (fuel : ℕ) : Sound conv fuel := by
  induction fuel with
  | zero =>
    refine ⟨fun _ h => ?_, fun _ _ _ h => ?_, fun h => ?_, fun h => ?_, fun h => ?_⟩
    · rw [parseBinary] at h
      cases h
    · rw [binaryLoop] at h
      cases h
    · rw [parseUnary] at h
      cases h
    · rw [parsePrimary] at h
      cases h
    · rw [parseArgs] at h
      cases h
  | succ fuel ih =>
    exact ⟨ih.binary_succ, ih.loop_succ, ih.unary_succ, ih.primary_succ, ih.args_succ⟩

end Sound

end Csapp.Eval14
