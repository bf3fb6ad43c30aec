import Csapp.Compiler.Compile

/-!
# Compiler.Evaluate — the evaluator of expressions

`Evaluate` of `eval.go`, against the value that an expression has in Go (`goValue`).  Literals are read by `Atoi`,
in decimal, whatever Go takes them for; an operator that is not implemented gives 0; a division by zero is not
caught.  A tree ends in one of three ways (`evaluate_cases`): a zero divisor is reached, a leaf is not accepted, or
the result is the number that the tree stands for when it is read that way (`num`).  The three defects are the
three parts of the condition of `evaluate_exact_iff`.
-/

namespace Csapp.Eval

open Csapp.Lib
open Csapp.Compiler (Op Error)

/-! ## Syntax trees -/

inductive LitKind
  | int | float | imag | char | string
  deriving DecidableEq

/-- The nodes that `Evaluate` does not look into, and the nil interface. -/
inductive NodeKind
  | badExpr | ident | ellipsis | funcLit | compositeLit | selectorExpr | indexExpr | indexListExpr | sliceExpr
  | typeAssertExpr | callExpr | starExpr | unaryExpr | keyValueExpr
  | arrayType | structType | funcType | interfaceType | mapType | chanType
  | nil
  deriving DecidableEq

inductive Expr
  | basicLit (kind : LitKind) (value : Text)
  | parenExpr (x : Expr)
  | binaryExpr (x : Expr) (op : Op) (y : Expr)
  | other (kind : NodeKind)
  deriving DecidableEq

/-! ## The evaluator -/

/-- The switch over the operator; `none` is the panic of a division by zero. -/
def applyOp (left right : Int64) : Op → Option Int64
  | .add => some (left + right)
  | .sub => some (left - right)
  | .mul => some (left * right)
  | .quo => if right = 0 then none else some (left / right)
  | _ => some 0

/-- `Evaluate`: a value or an error; `none` is a panic. -/
def evaluate : Expr → Option (Except Error Int64)
  | .basicLit _ value =>
    match atoi value with
    | .ok n => some (.ok (Int64.ofInt n))
    | .error err => some (.error (.numError value err))
  | .parenExpr x => evaluate x
  | .binaryExpr x op y =>
    match evaluate x with
    | none => none
    | some (.error err) => some (.error err)
    | some (.ok left) =>
      match evaluate y with
      | none => none
      | some (.error err) => some (.error err)
      | some (.ok right) => (applyOp left right op).map .ok
  | .other _ => some (.error (.errorf "Invalid AST assumptions".toList))

/-! ## What an expression means in Go -/

/-- The digits of the bases up to 16. -/
def goDigit (base : ℕ) (c : Char) : Option ℕ :=
  let d :=
    if '0' ≤ c ∧ c ≤ '9' then c.toNat - '0'.toNat
    else if 'a' ≤ c ∧ c ≤ 'f' then c.toNat - 'a'.toNat + 10
    else if 'A' ≤ c ∧ c ≤ 'F' then c.toNat - 'A'.toNat + 10
    else 16
  if d < base then some d else none

/-- Digits, with single underscores between them. -/
def goDigits (base : ℕ) (s : Text) : Option ℕ :=
  if (s.splitOn '_').any List.isEmpty then none
  else (s.filter (· ≠ '_')).foldlM (fun n c => (goDigit base c).map (base * n + ·)) 0

/-- An underscore may follow the prefix of a base. -/
def dropUnderscore (s : Text) : Text := if s.head? = some '_' then s.tail else s

/-- Integer literals: a leading `0` stands for a base other than ten. -/
def goIntLit : Text → Option ℕ
  | ['0'] => some 0
  | '0' :: p :: s =>
    if p = 'b' ∨ p = 'B' then goDigits 2 (dropUnderscore s)
    else if p = 'o' ∨ p = 'O' then goDigits 8 (dropUnderscore s)
    else if p = 'x' ∨ p = 'X' then goDigits 16 (dropUnderscore s)
    else goDigits 8 (dropUnderscore (p :: s))
  | s => goDigits 10 s

/-- The `int` that a literal denotes, when it does. -/
def goLit (kind : LitKind) (value : Text) : Option Int64 :=
  if kind = .int then
    (goIntLit value).bind fun n => if n < 2 ^ 63 then some (Int64.ofInt n) else none
  else none

/-- The four operators on `int`: the mathematical result, wrapped to 64 bits; division truncates. -/
def goOp (a b : Int64) : Op → Option Int64
  | .add => some (Int64.ofInt (a.toInt + b.toInt))
  | .sub => some (Int64.ofInt (a.toInt - b.toInt))
  | .mul => some (Int64.ofInt (a.toInt * b.toInt))
  | .quo => if b = 0 then none else some (Int64.ofInt (a.toInt.tdiv b.toInt))
  | _ => none

/-- The value of an expression whose literals are read by `lit`; `none` where there is none. -/
def valueOf (lit : LitKind → Text → Option Int64) : Expr → Option Int64
  | .basicLit kind value => lit kind value
  | .parenExpr x => valueOf lit x
  | .binaryExpr x op y => (valueOf lit x).bind fun a => (valueOf lit y).bind fun b => goOp a b op
  | .other _ => none

/-- The value of an expression over `int` literals and the four operators. -/
def goValue : Expr → Option Int64 := valueOf goLit

/-- A literal read in decimal. -/
def decimalLit (_ : LitKind) (value : Text) : Option Int64 :=
  match atoi value with
  | .ok n => some (Int64.ofInt n)
  | .error _ => none

/-- The evaluator returns an error, or the value that the expression has. -/
def Exact (e : Expr) : Prop :=
  (∃ err, evaluate e = some (.error err)) ∨ ∃ v, evaluate e = some (.ok v) ∧ goValue e = some v

/-! ## Trees as the evaluator reads them -/

/-- Every leaf is a literal that `Atoi` accepts. -/
def Accepted : Expr → Prop
  | .basicLit _ value => ∃ n, atoi value = .ok n
  | .parenExpr x => Accepted x
  | .binaryExpr x _ y => Accepted x ∧ Accepted y
  | .other _ => False

/-- Only the four operators occur. -/
def Arithmetic : Expr → Prop
  | .parenExpr x => Arithmetic x
  | .binaryExpr x op y => Arithmetic x ∧ (op = .add ∨ op = .sub ∨ op = .mul ∨ op = .quo) ∧ Arithmetic y
  | _ => True

/-- The number of a tree: its value with literals in decimal, and 0 where there is none. -/
def num : Expr → Int64
  | .basicLit kind value => (decimalLit kind value).getD 0
  | .parenExpr x => num x
  | .binaryExpr x op y => (goOp (num x) (num y) op).getD 0
  | .other _ => 0

/-- From left to right, a zero divisor comes before a leaf that is not accepted. -/
def ReachesZero : Expr → Prop
  | .basicLit _ _ => False
  | .parenExpr x => ReachesZero x
  | .binaryExpr x op y =>
    ReachesZero x ∨ Accepted x ∧ (ReachesZero y ∨ Accepted y ∧ op = .quo ∧ num y = 0)
  | .other _ => False

theorem decimalLit_of_ok {kind : LitKind} {value : Text} {n : ℤ} (h : atoi value = .ok n) :
    decimalLit kind value = some (Int64.ofInt n) := by
  rw [decimalLit, h]

/-- The machine's operations are the wrapped ones. -/
theorem applyOp_eq_goOp {a b : Int64} {op : Op} (h : op = .add ∨ op = .sub ∨ op = .mul ∨ op = .quo) :
    applyOp a b op = goOp a b op := by
  have hdiv : a / b = Int64.ofInt (a.toInt.tdiv b.toInt) := by
    rw [← Int64.toInt_inj, Int64.toInt_div, Int64.toInt_ofInt]
  rcases h with rfl | rfl | rfl | rfl
  · rw [applyOp, goOp, Int64.ofInt_add, Int64.ofInt_toInt, Int64.ofInt_toInt]
  · rw [applyOp, goOp, Int64.ofInt_sub, Int64.ofInt_toInt, Int64.ofInt_toInt]
  · rw [applyOp, goOp, Int64.ofInt_mul, Int64.ofInt_toInt, Int64.ofInt_toInt]
  · rw [applyOp, goOp, hdiv]

/-- The switch has a panic for a zero divisor only, and 0 for an operator without a case. -/
theorem applyOp_cases (a b : Int64) (op : Op) :
    op = .quo ∧ b = 0 ∧ applyOp a b op = none ∨
      ¬(op = .quo ∧ b = 0) ∧ applyOp a b op = some ((goOp a b op).getD 0) := by
  by_cases hop : op = .add ∨ op = .sub ∨ op = .mul ∨ op = .quo
  · rw [applyOp_eq_goOp hop]
    rcases hop with rfl | rfl | rfl | rfl
    · exact Or.inr ⟨fun h => (nomatch h.1), rfl⟩
    · exact Or.inr ⟨fun h => (nomatch h.1), rfl⟩
    · exact Or.inr ⟨fun h => (nomatch h.1), rfl⟩
    · by_cases hb : b = 0
      · exact Or.inl ⟨rfl, hb, if_pos hb⟩
      · exact Or.inr ⟨fun h => hb h.2, by rw [goOp, if_neg hb, Option.getD_some]⟩
  · refine Or.inr ⟨fun h => hop (Or.inr (Or.inr (Or.inr h.1))), ?_⟩
    cases op <;> first | rfl | exact absurd (by decide) hop

theorem evaluate_binaryExpr {x y : Expr} {a b : Int64} (hx : evaluate x = some (.ok a))
    (hy : evaluate y = some (.ok b)) (op : Op) :
    evaluate (.binaryExpr x op y) = (applyOp a b op).map .ok := by
  rw [evaluate, hx, hy]

/-- How a tree ends. -/
inductive Ending (e : Expr) : Prop
  | panic (hz : ReachesZero e) (h : evaluate e = none)
  | error (hz : ¬ReachesZero e) (ha : ¬Accepted e) (err : Error) (h : evaluate e = some (.error err))
  | value (hz : ¬ReachesZero e) (ha : Accepted e) (h : evaluate e = some (.ok (num e)))

theorem evaluate_cases (e : Expr) : Ending e := by
  induction e with
  | basicLit kind value =>
    cases hv : atoi value with
    | ok n => exact .value not_false ⟨n, hv⟩ (by rw [evaluate, num, decimalLit_of_ok hv, hv, Option.getD_some])
    | error err =>
      refine .error not_false ?_ _ (by rw [evaluate, hv])
      rintro ⟨n, hn⟩
      rw [hv] at hn
      cases hn
  | parenExpr x ih =>
    cases ih with
    | panic hz h => exact .panic hz h
    | error hz ha err h => exact .error hz ha err h
    | value hz ha h => exact .value hz ha h
  | binaryExpr x op y ihx ihy =>
    cases ihx with
    | panic hz h => exact .panic (Or.inl hz) (by rw [evaluate, h])
    | error hz ha err h =>
      exact .error (not_or.mpr ⟨hz, fun h' => ha h'.1⟩) (fun h' => ha h'.1) err (by rw [evaluate, h])
    | value hzx hax hx =>
      cases ihy with
      | panic hz h => exact .panic (Or.inr ⟨hax, Or.inl hz⟩) (by rw [evaluate, hx, h])
      | error hz ha err h =>
        refine .error (not_or.mpr ⟨hzx, fun h' => ?_⟩) (fun h' => ha h'.2) err (by rw [evaluate, hx, h])
        exact h'.2.elim hz fun h'' => ha h''.1
      | value hzy hay hy =>
        rcases applyOp_cases (num x) (num y) op with ⟨hq, h0, happ⟩ | ⟨hne, happ⟩
        · exact .panic (Or.inr ⟨hax, Or.inr ⟨hay, hq, h0⟩⟩)
            (by rw [evaluate_binaryExpr hx hy, happ, Option.map_none])
        · refine .value (not_or.mpr ⟨hzx, fun h' => ?_⟩) ⟨hax, hay⟩
            (by rw [evaluate_binaryExpr hx hy, happ, Option.map_some, num])
          exact h'.2.elim hzy fun h'' => hne h''.2
  | other kind => exact .error not_false not_false _ rfl

/-- A value has to come from the four operators. -/
theorem arithmetic_of_valueOf {lit : LitKind → Text → Option Int64} {e : Expr} {v : Int64}
    (h : valueOf lit e = some v) : Arithmetic e := by
  induction e generalizing v with
  | basicLit kind value => trivial
  | parenExpr x ih => exact ih h
  | binaryExpr x op y ihx ihy =>
    obtain ⟨a, ha, hrest⟩ := Option.bind_eq_some_iff.mp h
    obtain ⟨b, hb, hop⟩ := Option.bind_eq_some_iff.mp hrest
    refine ⟨ihx ha, ?_, ihy hb⟩
    cases op <;> first | decide | cases hop
  | other kind => trivial

/-- Over the four operators, and with no division by zero, the number of a tree is its value. -/
theorem valueOf_decimalLit {e : Expr} (ha : Accepted e) (harith : Arithmetic e) (hz : ¬ReachesZero e) :
    valueOf decimalLit e = some (num e) := by
  induction e with
  | basicLit kind value =>
    obtain ⟨n, hn⟩ := ha
    rw [valueOf, num, decimalLit_of_ok hn, Option.getD_some]
  | parenExpr x ih => exact ih ha harith hz
  | binaryExpr x op y ihx ihy =>
    obtain ⟨hx, hop, hy⟩ := harith
    obtain ⟨hzx, hzy⟩ := not_or.mp hz
    have hzy' : ¬ReachesZero y := fun h => hzy ⟨ha.1, Or.inl h⟩
    rw [valueOf, ihx ha.1 hx hzx, ihy ha.2 hy hzy', Option.bind_some, Option.bind_some, num]
    rcases applyOp_cases (num x) (num y) op with ⟨hq, h0, -⟩ | ⟨-, happ⟩
    · exact absurd ⟨ha.1, Or.inr ⟨ha.2, hq, h0⟩⟩ hzy
    · rw [← applyOp_eq_goOp hop, happ, Option.getD_some]
  | other kind => exact absurd ha not_false

/-- No zero divisor is reached; and where all leaves are accepted, only the four operators occur and Go has no
other value for the literals taken in decimal. -/
theorem evaluate_exact_iff (e : Expr) :
    Exact e ↔ ¬ReachesZero e ∧ (Accepted e → Arithmetic e ∧ goValue e = valueOf decimalLit e) := by
  rcases evaluate_cases e with ⟨hz, h⟩ | ⟨hz, ha, err, h⟩ | ⟨hz, ha, h⟩
  · refine ⟨fun hex => ?_, fun hc => absurd hz hc.1⟩
    rcases hex with ⟨err, h'⟩ | ⟨v, h', -⟩
    · rw [h] at h'
      cases h'
    · rw [h] at h'
      cases h'
  · exact ⟨fun _ => ⟨hz, fun h' => absurd h' ha⟩, fun _ => Or.inl ⟨err, h⟩⟩
  · constructor
    · rintro (⟨err, h'⟩ | ⟨v, h', hv⟩)
      · rw [h] at h'
        cases h'
      · rw [h] at h'
        cases h'
        have harith := arithmetic_of_valueOf hv
        exact ⟨hz, fun _ => ⟨harith, hv.trans (valueOf_decimalLit ha harith hz).symm⟩⟩
    · rintro ⟨-, hc⟩
      obtain ⟨harith, hgo⟩ := hc ha
      exact Or.inr ⟨num e, h, hgo.trans (valueOf_decimalLit ha harith hz)⟩

/-- A remainder is 0 instead of an error. -/
theorem remainder_not_exact : ¬∀ e : Expr, Exact e := by
  intro h
  have hval : evaluate (.binaryExpr (.basicLit .int ['7']) .rem (.basicLit .int ['2'])) = some (.ok 0) := rfl
  rcases h (.binaryExpr (.basicLit .int ['7']) .rem (.basicLit .int ['2'])) with ⟨err, h'⟩ | ⟨v, -, hv⟩
  · rw [hval] at h'
    cases h'
  · have hnone : goValue (.binaryExpr (.basicLit .int ['7']) .rem (.basicLit .int ['2'])) = none := by decide
    rw [hnone] at hv
    cases hv

/-! ## Plain trees -/

/-- The four operators over literals that Go reads in decimal, too. -/
def Plain : Expr → Prop
  | .basicLit kind value => goLit kind value = decimalLit kind value
  | .parenExpr x => Plain x
  | .binaryExpr x op y => Plain x ∧ (op = .add ∨ op = .sub ∨ op = .mul ∨ op = .quo) ∧ Plain y
  | .other _ => False

theorem Plain.arithmetic {e : Expr} (h : Plain e) : Arithmetic e := by
  induction e with
  | basicLit kind value => trivial
  | parenExpr x ih => exact ih h
  | binaryExpr x op y ihx ihy => exact ⟨ihx h.1, h.2.1, ihy h.2.2⟩
  | other kind => trivial

theorem Plain.goValue_eq {e : Expr} (h : Plain e) : goValue e = valueOf decimalLit e := by
  unfold goValue
  induction e with
  | basicLit kind value => exact h
  | parenExpr x ih => exact ih h
  | binaryExpr x op y ihx ihy => rw [valueOf, valueOf, ihx h.1, ihy h.2.2]
  | other kind => rfl

/-- Plain trees are evaluated right unless a zero divisor is reached. -/
theorem Plain.condition {e : Expr} (h : Plain e) (hz : ¬ReachesZero e) :
    ¬ReachesZero e ∧ (Accepted e → Arithmetic e ∧ goValue e = valueOf decimalLit e) :=
  ⟨hz, fun _ => ⟨h.arithmetic, h.goValue_eq⟩⟩

theorem goDigit_of_isDigit {c : Char} (hc : c.isDigit = true) : goDigit 10 c = some (c.toNat - '0'.toNat) := by
  have hle : '0' ≤ c ∧ c ≤ '9' := by simpa [Char.isDigit, Char.le_def] using hc
  have hlt : c.toNat - '0'.toNat < 10 := by
    have hnine : c.toNat ≤ '9'.toNat := UInt32.le_iff_toNat_le.mp (Char.le_def.mp hle.2)
    rw [show '9'.toNat = 57 from rfl] at hnine
    rw [show '0'.toNat = 48 from rfl]
    omega
  rw [goDigit, if_pos hle, if_pos hlt]

theorem goDigits_of_digits {s : Text} (hne : s ≠ []) (hd : ∀ c ∈ s, c.isDigit = true) :
    goDigits 10 s = some (Nat.ofDigitChars 10 s 0) := by
  have hno : '_' ∉ s := fun hmem => absurd (hd _ hmem) (by decide)
  have hfilter : s.filter (· ≠ '_') = s :=
    List.filter_eq_self.mpr fun c hc => decide_eq_true fun he => hno (he ▸ hc)
  have hfold : ∀ n, s.foldlM (fun n c => (goDigit 10 c).map (10 * n + ·)) n = some (Nat.ofDigitChars 10 s n) := by
    clear hne hno hfilter
    induction s with
    | nil => exact fun n => rfl
    | cons c s ih =>
      intro n
      rw [List.foldlM_cons, goDigit_of_isDigit (hd c List.mem_cons_self), Nat.ofDigitChars_cons]
      exact ih (fun d h => hd d (List.mem_cons_of_mem c h)) _
  have hone : ¬[s].any List.isEmpty = true := by
    rw [List.any_cons, List.any_nil, Bool.or_false, List.isEmpty_iff]
    exact hne
  rw [goDigits, List.splitOn_eq_singleton hno, if_neg hone, hfilter, hfold]

/-- Digits with no 0 in front are a plain literal. -/
theorem plain_of_digits {c : Char} {s : Text} (hd : ∀ d ∈ c :: s, d.isDigit = true) (hc : c ≠ '0')
    (hlt : Nat.ofDigitChars 10 (c :: s) 0 < 2 ^ 63) : Plain (.basicLit .int (c :: s)) := by
  have hgo : goIntLit (c :: s) = some (Nat.ofDigitChars 10 (c :: s) 0) := by
    rw [← goDigits_of_digits (List.cons_ne_nil c s) hd]
    unfold goIntLit
    split
    · next heq => exact absurd (List.cons.inj heq).1 hc
    · next heq => exact absurd (List.cons.inj heq).1 hc
    · rfl
  have hatoi := atoi_of_digits (List.cons_ne_nil c s) hd hlt
  rw [Plain, goLit, if_pos rfl, hgo, Option.bind_some, if_pos hlt, decimalLit_of_ok hatoi]

end Csapp.Eval
