import Csapp.Eval14.Parse
import Mathlib.Logic.Function.Basic

/-!
# Eval14.Check — checking and evaluating an expression

`Check` collects the variables of an expression and finds the operators and calls that `Eval` does not support.  An
expression without such an error has a value in every environment, and the value is found in the variables that
`Check` has collected (`Check_Eval`).  The arithmetic of floats is a parameter.
-/

namespace Csapp.Eval14

open Csapp.Lib

variable {α : Type}

def numParams (fn : String) : Option ℕ :=
  if fn = "pow" then some 2 else if fn = "sin" then some 1 else if fn = "sqrt" then some 1 else none

/-! ## check.go -/

/-- `%q` for a rune and for a string. -/
structure Quotes where
  rune : Char → String
  text : String → String

/-- `map[Var]bool`. -/
abbrev Vars := String → Bool

section Check

variable (q : Quotes)

mutual

/-- The error, if there is one, and the variables. -/
def Expr.Check : Expr α → Vars → Option String × Vars
  | .var v, vars => (none, Function.update vars v true)
  | .literal _, vars => (none, vars)
  | .unary op x, vars =>
    if op ∈ ['+', '-'] then x.Check vars else (some ("unexpected unary op " ++ q.rune op), vars)
  | .binary op x y, vars =>
    if op ∈ ['+', '-', '*', '/'] then
      match x.Check vars with
      | (some err, vars) => (some err, vars)
      | (none, vars) => y.Check vars
    else (some ("unexpected binary op " ++ q.rune op), vars)
  | .call fn args, vars =>
    match numParams fn with
    | none => (some ("unknown function " ++ q.text fn), vars)
    | some arity =>
      if args.length ≠ arity then
        (some ("call to " ++ fn ++ " has " ++ toString args.length ++ " args, want " ++ toString arity), vars)
      else checkArgs args vars

/-- The loop over the arguments. -/
def checkArgs : List (Expr α) → Vars → Option String × Vars
  | [], vars => (none, vars)
  | arg :: args, vars =>
    match arg.Check vars with
    | (some err, vars) => (some err, vars)
    | (none, vars) => checkArgs args vars

end

end Check

/-! ## eval.go -/

/-- The operations on `float64`. -/
structure Floats (α : Type) where
  zero : α
  plus : α → α
  neg : α → α
  add : α → α → α
  sub : α → α → α
  mul : α → α → α
  div : α → α → α
  pow : α → α → α
  sin : α → α
  sqrt : α → α

abbrev Env (α : Type) := String → Option α

/-- What `Eval` panics with. -/
inductive EvalPanic
  | unary (op : Char)
  | binary (op : Char)
  | call (fn : String)
  | indexOutOfRange
  deriving DecidableEq

section Evaluation

variable (ops : Floats α)

/-- `env[v]`: a key that is missing has the zero value. -/
def lookup (env : Env α) (v : String) : α := (env v).getD ops.zero

mutual

def Expr.Eval (env : Env α) : Expr α → Except EvalPanic α
  | .var v => .ok (lookup ops env v)
  | .literal l => .ok l
  | .unary op x =>
    if op = '+' then (x.Eval env).map ops.plus
    else if op = '-' then (x.Eval env).map ops.neg
    else .error (.unary op)
  | .binary op x y =>
    if op = '+' then do .ok (ops.add (← x.Eval env) (← y.Eval env))
    else if op = '-' then do .ok (ops.sub (← x.Eval env) (← y.Eval env))
    else if op = '*' then do .ok (ops.mul (← x.Eval env) (← y.Eval env))
    else if op = '/' then do .ok (ops.div (← x.Eval env) (← y.Eval env))
    else .error (.binary op)
  | .call fn args =>
    if fn = "pow" then do .ok (ops.pow (← evalArg env args 0) (← evalArg env args 1))
    else if fn = "sin" then (evalArg env args 0).map ops.sin
    else if fn = "sqrt" then (evalArg env args 0).map ops.sqrt
    else .error (.call fn)

/-- `args[i].Eval(env)`. -/
def evalArg (env : Env α) : List (Expr α) → ℕ → Except EvalPanic α
  | [], _ => .error .indexOutOfRange
  | arg :: _, 0 => arg.Eval env
  | _ :: args, i + 1 => evalArg env args i

end

end Evaluation

mutual

/-- The variables of an expression. -/
def Expr.vars : Expr α → List String
  | .var v => [v]
  | .literal _ => []
  | .unary _ x => x.vars
  | .binary _ x y => x.vars ++ y.vars
  | .call _ args => argsVars args

def argsVars : List (Expr α) → List String
  | [] => []
  | arg :: args => arg.vars ++ argsVars args

end

/-! ## An expression without errors has a value -/

section Safe

variable (q : Quotes) (ops : Floats α)

/-- `Eval` gives a value, the same in two environments that agree on the variables. -/
def HasValue (vs : List String) (eval : Env α → Except EvalPanic α) : Prop :=
  ∀ env, ∃ x, eval env = .ok x ∧ ∀ env', (∀ v ∈ vs, lookup ops env v = lookup ops env' v) → eval env' = .ok x

variable {q ops} {e : Expr α} {args : List (Expr α)} {vars vars' : Vars} {vs ws : List String}
  {f g : Env α → Except EvalPanic α}

theorem HasValue.map (h : HasValue ops vs f) (op : α → α) : HasValue ops vs fun env => (f env).map op := by
  intro env
  obtain ⟨x, hx, hsame⟩ := h env
  refine ⟨op x, ?_, fun env' henv => ?_⟩
  · dsimp only
    rw [hx]
    rfl
  · dsimp only
    rw [hsame env' henv]
    rfl

theorem HasValue.map₂ (h : HasValue ops vs f) (h' : HasValue ops ws g) (op : α → α → α) :
    HasValue ops (vs ++ ws) (fun env => do .ok (op (← f env) (← g env))) := by
  intro env
  obtain ⟨x, hx, hsame⟩ := h env
  obtain ⟨y, hy, hsame'⟩ := h' env
  refine ⟨op x y, ?_, fun env' henv => ?_⟩
  · dsimp only
    rw [hx, hy]
    rfl
  · dsimp only
    rw [hsame env' fun v hv => henv v (List.mem_append_left _ hv),
      hsame' env' fun v hv => henv v (List.mem_append_right _ hv)]
    rfl

/-- A set of variables after those of `vs`. -/
def Collects (vs : List String) (vars vars' : Vars) : Prop := ∀ v, vars' v = true ↔ vars v = true ∨ v ∈ vs

theorem Collects.trans {vars'' : Vars} (h : Collects vs vars vars') (h' : Collects ws vars' vars'') :
    Collects (vs ++ ws) vars vars'' := fun v => by
  rw [h' v, h v, List.mem_append, or_assoc]

theorem HasValue.mono (h : HasValue ops vs f) (hsub : ∀ v ∈ vs, v ∈ ws) : HasValue ops ws f := by
  intro env
  obtain ⟨x, hx, hsame⟩ := h env
  exact ⟨x, hx, fun env' henv => hsame env' fun v hv => henv v (hsub v hv)⟩

theorem numParams_eq_some {fn : String} {arity : ℕ} (h : numParams fn = some arity) :
    fn = "pow" ∧ arity = 2 ∨ fn = "sin" ∧ arity = 1 ∨ fn = "sqrt" ∧ arity = 1 := by
  unfold numParams at h
  split at h
  · exact Or.inl ⟨‹_›, (Option.some.inj h).symm⟩
  · split at h
    · exact Or.inr (Or.inl ⟨‹_›, (Option.some.inj h).symm⟩)
    · split at h
      · exact Or.inr (Or.inr ⟨‹_›, (Option.some.inj h).symm⟩)
      · cases h

/-- The functions find their arguments. -/
theorem hasValue_call {fn : String} (hfn : numParams fn = some args.length)
    (hargs : ∀ i, i < args.length → HasValue ops vs fun env => evalArg ops env args i) :
    HasValue ops vs fun env => (Expr.call fn args).Eval ops env := by
  unfold Expr.Eval
  rcases numParams_eq_some hfn with ⟨rfl, hlen⟩ | ⟨rfl, hlen⟩ | ⟨rfl, hlen⟩
  · have h := (hargs 0 (by omega)).map₂ (hargs 1 (by omega)) ops.pow
    refine HasValue.mono h fun v hv => ?_
    rwa [List.mem_append, or_self] at hv
  · exact (hargs 0 (by omega)).map ops.sin
  · exact (hargs 0 (by omega)).map ops.sqrt

theorem hasValue_unary {op : Char} {x : Expr α} (hop : op ∈ ['+', '-'])
    (hx : HasValue ops vs fun env => x.Eval ops env) :
    HasValue ops vs fun env => (Expr.unary op x).Eval ops env := by
  unfold Expr.Eval
  simp only [List.mem_cons, List.not_mem_nil, or_false] at hop
  rcases hop with rfl | rfl
  · exact hx.map ops.plus
  · exact hx.map ops.neg

theorem hasValue_binary {op : Char} {x y : Expr α} (hop : op ∈ ['+', '-', '*', '/'])
    (hx : HasValue ops vs fun env => x.Eval ops env) (hy : HasValue ops ws fun env => y.Eval ops env) :
    HasValue ops (vs ++ ws) fun env => (Expr.binary op x y).Eval ops env := by
  unfold Expr.Eval
  simp only [List.mem_cons, List.not_mem_nil, or_false] at hop
  rcases hop with rfl | rfl | rfl | rfl
  · exact hx.map₂ hy ops.add
  · exact hx.map₂ hy ops.sub
  · exact hx.map₂ hy ops.mul
  · exact hx.map₂ hy ops.div

mutual

theorem Expr.check_eval : ∀ (e : Expr α) {vars vars' : Vars}, e.Check q vars = (none, vars') →
    Collects e.vars vars vars' ∧ HasValue ops e.vars fun env => e.Eval ops env
  | .var v, vars, vars', h => by
    unfold Expr.Check at h
    obtain ⟨-, rfl⟩ := Prod.mk.inj h
    unfold Expr.vars Expr.Eval
    refine ⟨fun w => ?_, fun env => ⟨_, rfl, fun env' henv => ?_⟩⟩
    · rw [List.mem_singleton]
      by_cases hw : w = v
      · rw [hw, Function.update_self]
        exact ⟨fun _ => Or.inr rfl, fun _ => rfl⟩
      · rw [Function.update_of_ne hw]
        exact ⟨Or.inl, fun h => h.resolve_right hw⟩
    · dsimp only
      rw [henv v (List.mem_singleton.mpr rfl)]
  | .literal l, vars, vars', h => by
    unfold Expr.Check at h
    obtain ⟨-, rfl⟩ := Prod.mk.inj h
    unfold Expr.vars Expr.Eval
    exact ⟨fun w => ⟨Or.inl, fun h => h.resolve_right List.not_mem_nil⟩, fun env => ⟨l, rfl, fun _ _ => rfl⟩⟩
  | .unary op x, vars, vars', h => by
    unfold Expr.Check at h
    unfold Expr.vars
    split at h
    · obtain ⟨hcollects, hvalue⟩ := x.check_eval h
      exact ⟨hcollects, hasValue_unary ‹_› hvalue⟩
    · cases h
  | .binary op x y, vars, vars', h => by
    unfold Expr.Check at h
    unfold Expr.vars
    split at h
    · split at h
      · cases h
      · rename_i vars₁ hx
        obtain ⟨hcollects, hvalue⟩ := x.check_eval hx
        obtain ⟨hcollects', hvalue'⟩ := y.check_eval h
        exact ⟨hcollects.trans hcollects', hasValue_binary ‹_› hvalue hvalue'⟩
    · cases h
  | .call fn args, vars, vars', h => by
    unfold Expr.Check at h
    unfold Expr.vars
    split at h
    · cases h
    · rename_i arity hfn
      split at h
      · cases h
      · rename_i hlen
        obtain ⟨hcollects, hvalues⟩ := checkArgs_eval args h
        rw [← of_not_not hlen] at hfn
        exact ⟨hcollects, hasValue_call hfn hvalues⟩

theorem checkArgs_eval : ∀ (args : List (Expr α)) {vars vars' : Vars}, checkArgs q args vars = (none, vars') →
    Collects (argsVars args) vars vars' ∧
      ∀ i, i < args.length → HasValue ops (argsVars args) fun env => evalArg ops env args i
  | [], vars, vars', h => by
    unfold checkArgs at h
    obtain ⟨-, rfl⟩ := Prod.mk.inj h
    unfold argsVars
    exact ⟨fun w => ⟨Or.inl, fun h => h.resolve_right List.not_mem_nil⟩, fun i hi => absurd hi (Nat.not_lt_zero i)⟩
  | arg :: args, vars, vars', h => by
    unfold checkArgs at h
    unfold argsVars
    split at h
    · cases h
    · rename_i vars₁ harg
      obtain ⟨hcollects, hvalue⟩ := arg.check_eval harg
      obtain ⟨hcollects', hvalues⟩ := checkArgs_eval args h
      refine ⟨hcollects.trans hcollects', fun i hi => ?_⟩
      cases i with
      | zero => exact hvalue.mono fun v hv => List.mem_append_left _ hv
      | succ i =>
        exact (hvalues i (Nat.lt_of_succ_lt_succ hi)).mono fun v hv => List.mem_append_right _ hv

end

/-- **Check and Eval**: an expression in which `Check` finds no error has a value in every environment; `Check` adds
the variables of the expression to the set and no others, and the value depends on these alone. -/
theorem Check_Eval (ops : Floats α) {e : Expr α} {vars vars' : Vars} (h : e.Check q vars = (none, vars')) :
    (∀ v, vars' v = true ↔ vars v = true ∨ v ∈ e.vars) ∧
      ∀ env, ∃ x, e.Eval ops env = .ok x ∧
        ∀ env', (∀ v ∈ e.vars, lookup ops env v = lookup ops env' v) → e.Eval ops env' = .ok x := by
  obtain ⟨hcollects, hvalue⟩ : _ ∧ HasValue ops e.vars _ := e.check_eval h
  exact ⟨hcollects, hvalue⟩

end Safe

/-- Integers in the place of floats, for `-x + 2`. -/
def intFloats : Floats Int :=
  ⟨0, id, Int.neg, Int.add, Int.sub, Int.mul, Int.tdiv, fun a b => Int.pow a b.toNat, id, id⟩

def plusTwo : Expr Int := .binary '+' (.unary '-' (.var "x")) (.literal 2)

/-- Quoting as it is in Lean, which for letters is that of `%q`. -/
def quotes : Quotes := ⟨Char.quote, String.quote⟩

theorem Check_Eval_sample : ∃ vars, plusTwo.Check quotes (fun _ => false) = (none, vars) ∧
    (∀ v, vars v = true ↔ v = "x") ∧ ∃ x, plusTwo.Eval intFloats (fun _ => some 3) = .ok x ∧ x = -1 := by
  have hcheck : plusTwo.Check quotes (fun _ => false) = (none, Function.update (fun _ => false) "x" true) := rfl
  obtain ⟨hvars, hvalue⟩ := Check_Eval intFloats hcheck
  obtain ⟨x, hx, -⟩ := hvalue fun _ => some 3
  refine ⟨_, hcheck, fun v => ?_, x, hx, ?_⟩
  · rw [hvars v, show plusTwo.vars = ["x"] from rfl, List.mem_singleton]
    exact ⟨fun h => h.resolve_left Bool.false_ne_true, Or.inr⟩
  · exact Except.ok.inj (hx.symm.trans rfl)

end Csapp.Eval14
