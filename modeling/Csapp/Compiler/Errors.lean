import Csapp.Compiler.Table

/-!
# Compiler.Errors — errors that the compiler does not report

`evalStmt` declares the `err` of its loop over a block anew, so an error of a statement ends the block and is
forgotten: `compile` returns no error at all (`compile_no_error`), whatever it has left out.  So a body
is compiled without silent loss if and only if there is nothing in it that the compiler cannot translate
(`noSilentMiscompilation_iff`).
-/

namespace Csapp.Compiler

open Csapp.Lib

/-! ## What has been translated -/

/-- The call for `e` and those for its sub-expressions return no error, each operator gives one instruction,
and every node has a case in the type switch. -/
def ExprTranslated (T : Table) : Expr → Prop
  | .basicLit value => ∃ t, evalExpr T (.basicLit value) = .ok t
  | .ident name => ∃ t, evalExpr T (.ident name) = .ok t
  | .binaryExpr x op y =>
    ExprTranslated T x ∧ ExprTranslated T y ∧ (getOpAsStringBuilder op).count '\n' = 1
  | .parenExpr x => ExprTranslated T x
  | .other => False
  | .nil => False

mutual

/-- The same for a statement, evaluated from the table `T`.  A bare `for` has no condition to translate. -/
def StmtTranslated : Stmt → Table → Prop
  | .returnStmt results, T => ∃ e, results = [e] ∧ ExprTranslated T e
  | .assignStmt lhs tok rhs, T =>
    (tok = .assign ∨ tok = .define) ∧ ∃ z e, lhs = [.ident z] ∧ rhs = [e] ∧ ExprTranslated T e
  | .ifStmt init cond body els, T => init = .nil ∧ ExprTranslated T cond ∧ BlockTranslated body T ∧
    ∃ t T', evalBlock body T = some (.ok t, T') ∧ StmtTranslated els T'
  | .forStmt init cond post body, T => init = .nil ∧ post = .nil ∧
    (cond = .nil ∨ ExprTranslated T cond) ∧ BlockTranslated body T
  | .blockStmt list, T => BlockTranslated list T
  | .declStmt tok _ values, _ => tok = .var ∧ values = []
  | .emptyStmt, _ => True
  | .other, _ => False
  | .nil, _ => True

def BlockTranslated : List Stmt → Table → Prop
  | [], _ => True
  | s :: rest, T => StmtTranslated s T ∧
    ∃ t T', evalStmt s T = some (.ok t, T') ∧ BlockTranslated rest T'

end

/-- The table with which `compile` evaluates a body. -/
def Table.withParams (T : Table) : Table := (T.set nameX 1).set nameY 2

/-- **No silent miscompilation**: where `compile` returns assembly, the whole body has been translated, and
where it cannot be, `compile` returns an error. -/
def NoSilentMiscompilation (T : Table) (node : FuncDecl) : Prop :=
  (∀ asm T', compile node T = some (.ok asm, T') → BlockTranslated node.body T.withParams) ∧
    (¬ BlockTranslated node.body T.withParams → ∃ e T', compile node T = some (.error e, T'))

/-! ## What can be translated -/

def supportedOps : List Op := [.add, .sub, .mul, .quo, .eql, .lss, .gtr]

def Expr.Supported : Expr → Prop
  | .basicLit value => ∃ i, atoi value = .ok i
  | .ident _ => True
  | .binaryExpr x op y => x.Supported ∧ y.Supported ∧ op ∈ supportedOps
  | .parenExpr x => x.Supported
  | .other => False
  | .nil => False

mutual

def Stmt.Supported : Stmt → Prop
  | .returnStmt results => ∃ e, results = [e] ∧ e.Supported
  | .assignStmt lhs tok rhs =>
    (tok = .assign ∨ tok = .define) ∧ ∃ z e, lhs = [.ident z] ∧ rhs = [e] ∧ e.Supported
  | .ifStmt init cond body els => init = .nil ∧ cond.Supported ∧ BlockSupported body ∧ els.Supported
  | .forStmt init cond post body =>
    init = .nil ∧ post = .nil ∧ (cond = .nil ∨ cond.Supported) ∧ BlockSupported body
  | .blockStmt list => BlockSupported list
  | .declStmt tok _ values => tok = .var ∧ values = []
  | .emptyStmt => True
  | .other => False
  | .nil => True

def BlockSupported : List Stmt → Prop
  | [] => True
  | s :: rest => s.Supported ∧ BlockSupported rest

end

/-! ## The names in the order in which they are looked up -/

def Expr.accesses : Expr → List Access
  | .ident z => [.read z]
  | .binaryExpr x _ y => x.accesses ++ y.accesses
  | .parenExpr x => x.accesses
  | _ => []

/-- The name that the left side of an assignment gives an address. -/
def lhsAccesses : List Expr → List Access
  | .ident z :: _ => [.write z]
  | _ => []

def firstAccesses : List Expr → List Access
  | e :: _ => e.accesses
  | [] => []

mutual

def Stmt.accesses : Stmt → List Access
  | .returnStmt results => firstAccesses results
  | .assignStmt lhs _ rhs => firstAccesses rhs ++ lhsAccesses lhs
  | .ifStmt _ cond body els => cond.accesses ++ (blockAccesses body ++ els.accesses)
  | .forStmt _ cond _ body => cond.accesses ++ blockAccesses body
  | .blockStmt list => blockAccesses list
  | _ => []

def blockAccesses : List Stmt → List Access
  | [] => []
  | s :: rest => s.accesses ++ blockAccesses rest

end

/-- Every name that is read is known at the start or has been assigned before. -/
def NamesKnown (known : Text → Prop) : List Access → Prop
  | [] => True
  | .read z :: rest => known z ∧ NamesKnown known rest
  | .decl _ :: rest => NamesKnown known rest
  | .write z :: rest => NamesKnown (fun k => known k ∨ k = z) rest

/-- The names that are known after `acc`. -/
def knownAfter (known : Text → Prop) (acc : List Access) : Text → Prop :=
  fun z => known z ∨ .write z ∈ acc

theorem knownAfter_nil (known : Text → Prop) : knownAfter known [] = known := by
  funext z
  simp [knownAfter]

theorem knownAfter_append (known : Text → Prop) (as bs : List Access) :
    knownAfter known (as ++ bs) = knownAfter (knownAfter known as) bs := by
  funext z
  simp [knownAfter, or_assoc]

theorem namesKnown_append {known : Text → Prop} {as bs : List Access} :
    NamesKnown known (as ++ bs) ↔ NamesKnown known as ∧ NamesKnown (knownAfter known as) bs := by
  induction as generalizing known with
  | nil => simp [NamesKnown, knownAfter_nil]
  | cons a as ih =>
    cases a with
    | read z =>
      have hk : knownAfter known (.read z :: as) = knownAfter known as := by
        funext k
        simp [knownAfter]
      simp only [List.cons_append, NamesKnown, ih, hk, and_assoc]
    | decl z =>
      have hk : knownAfter known (.decl z :: as) = knownAfter known as := by
        funext k
        simp [knownAfter]
      simp only [List.cons_append, NamesKnown, ih, hk]
    | write z =>
      have hk : knownAfter known (.write z :: as) = knownAfter (fun k => known k ∨ k = z) as := by
        funext k
        simp [knownAfter, or_assoc]
      simp only [List.cons_append, NamesKnown, ih, hk]

/-! ## Expressions -/

def Table.Has (T : Table) (z : Text) : Prop := T.varToMem z ≠ none

theorem evalExpr_of_translated {T : Table} {e : Expr} (h : ExprTranslated T e) :
    ∃ t, evalExpr T e = .ok t := by
  induction e with
  | basicLit value => exact h
  | ident name => exact h
  | binaryExpr x op y ihx ihy =>
    obtain ⟨t, ht⟩ := ihx h.1
    obtain ⟨u, hu⟩ := ihy h.2.1
    refine ⟨t ++ u ++ getOpAsStringBuilder op, ?_⟩
    rw [evalExpr, ht, hu]
    rfl
  | parenExpr x ih => exact ih h
  | other => exact h.elim
  | nil => exact h.elim

theorem count_getOp_iff (op : Op) : (getOpAsStringBuilder op).count '\n' = 1 ↔ op ∈ supportedOps := by
  cases op <;> decide

theorem namesKnown_read {known : Text → Prop} (z : Text) : NamesKnown known [.read z] ↔ known z :=
  and_iff_left trivial

/-- An expression assigns nothing. -/
theorem knownAfter_expr (known : Text → Prop) (e : Expr) : knownAfter known e.accesses = known := by
  induction e with
  | binaryExpr x op y ihx ihy => rw [Expr.accesses, knownAfter_append, ihx, ihy]
  | parenExpr x ih => exact ih
  | ident z =>
    funext k
    simp [knownAfter, Expr.accesses]
  | _ => exact knownAfter_nil known

theorem exprTranslated_iff {T : Table} {e : Expr} :
    ExprTranslated T e ↔ e.Supported ∧ NamesKnown T.Has e.accesses := by
  induction e with
  | basicLit value =>
    simp only [ExprTranslated, Expr.Supported, Expr.accesses, NamesKnown, and_true, evalExpr]
    cases atoi value with
    | error err => simp
    | ok i => simp
  | ident z =>
    simp only [ExprTranslated, Expr.Supported, Expr.accesses, namesKnown_read, true_and, evalExpr, Table.Has]
    cases T.varToMem z with
    | none => simp
    | some a => simp
  | binaryExpr x op y ihx ihy =>
    simp only [ExprTranslated, Expr.Supported, Expr.accesses, namesKnown_append, knownAfter_expr, ihx, ihy,
      count_getOp_iff]
    tauto
  | parenExpr x ih => exact ih
  | other => simp [ExprTranslated, Expr.Supported]
  | nil => simp [ExprTranslated, Expr.Supported]

/-! ## Statements -/

/-- `translated` says of the tables from which `ev` translates a piece of source that they are those in which
its names are known, provided that it is `supported`; and `ev` then adds the names that it assigns. -/
structure Spec {α : Type} (translated : Table → Prop) (supported : Prop) (acc : List Access) (ev : Eval α) :
    Prop where
  iff : ∀ T, translated T ↔ supported ∧ NamesKnown T.Has acc
  runs : ∀ T, translated T → ∃ t T', ev T = some (.ok t, T') ∧ T'.Has = knownAfter T.Has acc

section Spec

variable {α β : Type} {tr tr' : Table → Prop} {sup sup' : Prop} {acc acc' : List Access} {ev : Eval α}

theorem Spec.congr (h : Spec tr sup acc ev) (htr : ∀ T, tr' T ↔ tr T) (hsup : sup' ↔ sup) :
    Spec tr' sup' acc ev where
  iff T := by rw [htr, hsup, h.iff]
  runs T ht := h.runs T ((htr T).mp ht)

theorem Spec.map (h : Spec tr sup acc ev) (g : α → β) :
    Spec tr sup acc (ev >>= fun a => pure (g a)) where
  iff := h.iff
  runs T ht := by
    obtain ⟨t, T', hev, hhas⟩ := h.runs T ht
    exact ⟨g t, T', Eval.bind_ok hev, hhas⟩

/-- One piece of source after the other. -/
theorem Spec.bind {k : α → Eval β} (h : Spec tr sup acc ev) (hk : ∀ a, Spec tr' sup' acc' (k a)) :
    Spec (fun T => tr T ∧ ∃ t T', ev T = some (.ok t, T') ∧ tr' T') (sup ∧ sup') (acc ++ acc')
      (ev >>= k) where
  iff T := by
    rw [namesKnown_append]
    constructor
    · rintro ⟨ht, t, T', hev, ht'⟩
      obtain ⟨u, U, hev', hhas⟩ := h.runs T ht
      cases hev.symm.trans hev'
      obtain ⟨h₁, h₂⟩ := (h.iff T).mp ht
      obtain ⟨h₃, h₄⟩ := ((hk t).iff T').mp ht'
      exact ⟨⟨h₁, h₃⟩, h₂, hhas ▸ h₄⟩
    · rintro ⟨⟨h₁, h₃⟩, h₂, h₄⟩
      have ht : tr T := (h.iff T).mpr ⟨h₁, h₂⟩
      obtain ⟨t, T', hev, hhas⟩ := h.runs T ht
      exact ⟨ht, t, T', hev, ((hk t).iff T').mpr ⟨h₃, hhas ▸ h₄⟩⟩
  runs T := by
    rintro ⟨ht, t, T', hev, ht'⟩
    obtain ⟨u, U, hev', hhas⟩ := h.runs T ht
    cases hev.symm.trans hev'
    obtain ⟨u, U, hevk, hhas'⟩ := (hk t).runs T' ht'
    exact ⟨u, U, (Eval.bind_ok hev).trans hevk, by rw [hhas', hhas, knownAfter_append]⟩

/-- A round of the loop over a block goes on where its statement returns no error. -/
theorem Spec.round {stmt rest : Eval Text} (h : Spec tr sup acc stmt) (hr : Spec tr' sup' acc' rest) :
    Spec (fun T => tr T ∧ ∃ t T', stmt T = some (.ok t, T') ∧ tr' T') (sup ∧ sup') (acc ++ acc')
      (evalRound stmt rest) where
  iff := (h.bind fun _ => hr).iff
  runs T := by
    rintro ⟨ht, t, T', hev, ht'⟩
    obtain ⟨u, U, hev', hhas⟩ := h.runs T ht
    cases hev.symm.trans hev'
    obtain ⟨u, U, hevr, hhas'⟩ := hr.runs T' ht'
    exact ⟨t ++ u, U, by simp only [evalRound, hev, hevr], by rw [hhas', hhas, knownAfter_append]⟩

/-- A piece of source that reads and assigns nothing. -/
theorem spec_pure {a : α} (htr : ∀ T, tr T ↔ sup) : Spec tr sup [] (pure a) where
  iff T := (htr T).trans (and_iff_left trivial).symm
  runs T _ := ⟨a, T, rfl, (knownAfter_nil _).symm⟩

/-- A piece of source that is never translated. -/
theorem spec_false (htr : ∀ T, ¬ tr T) (hsup : ¬ sup) : Spec tr sup acc ev where
  iff T := ⟨fun h => absurd h (htr T), fun h => absurd h.1 hsup⟩
  runs T h := absurd h (htr T)

end Spec

theorem spec_expr (e : Expr) :
    Spec (ExprTranslated · e) e.Supported e.accesses (reading (evalExpr · e)) where
  iff _ := exprTranslated_iff
  runs T h := by
    obtain ⟨t, ht⟩ := evalExpr_of_translated h
    exact ⟨t, T, by rw [reading_apply, ht], (knownAfter_expr _ e).symm⟩

theorem spec_cond (cond : Expr) : Spec (fun T => cond = .nil ∨ ExprTranslated T cond)
    (cond = .nil ∨ cond.Supported) cond.accesses (reading (evalExpr · cond)) := by
  by_cases hc : cond = .nil
  · subst hc
    exact ⟨fun T => by simp [Expr.accesses, NamesKnown], fun T _ => ⟨[], T, rfl, (knownAfter_nil _).symm⟩⟩
  · exact (spec_expr cond).congr (fun T => or_iff_right hc) (or_iff_right hc)

theorem spec_locate (z : Text) : Spec (fun _ => True) True [.write z] (locate z) where
  iff _ := by simp [NamesKnown]
  runs T _ := by
    unfold locate
    cases hz : T.varToMem z with
    | some a =>
      refine ⟨a, T, rfl, funext fun k => ?_⟩
      by_cases hk : k = z
      · simp [knownAfter, Table.Has, hk, hz]
      · simp [knownAfter, hk]
    | none =>
      refine ⟨_, _, rfl, funext fun k => ?_⟩
      by_cases hk : k = z
      · simp [knownAfter, Table.Has, Table.set, hk]
      · simp [knownAfter, Table.Has, Table.set, hk]

/-- The table after an expression is the table before it. -/
theorem and_reading {T : Table} {e : Expr} {tr : Table → Prop} {P : Prop}
    (hP : P → ∃ t, evalExpr T e = .ok t) :
    (P ∧ ∃ t T', reading (evalExpr · e) T = some (.ok t, T') ∧ tr T') ↔ P ∧ tr T := by
  constructor
  · rintro ⟨h, t, T', hev, ht⟩
    obtain ⟨-, rfl⟩ := Prod.mk.inj (Option.some.inj hev)
    exact ⟨h, ht⟩
  · rintro ⟨h, ht⟩
    obtain ⟨t, hev⟩ := hP h
    exact ⟨h, t, T, by rw [reading_apply, hev], ht⟩

theorem spec_return (results : List Expr) : Spec (StmtTranslated (.returnStmt results))
    (Stmt.Supported (.returnStmt results)) (Stmt.accesses (.returnStmt results))
    (evalStmt (.returnStmt results)) := by
  match results with
  | [] => exact spec_false (fun T h => by simp [StmtTranslated] at h) (by simp [Stmt.Supported])
  | [e] =>
    refine ((spec_expr e).map fun res => res ++ "pop 0\nhalt\n".toList).congr (fun T => ?_) ?_
    · simp [StmtTranslated]
    · simp [Stmt.Supported]
  | e :: e' :: es => exact spec_false (fun T h => by simp [StmtTranslated] at h) (by simp [Stmt.Supported])

theorem spec_assign (lhs : List Expr) (tok : AssignTok) (rhs : List Expr) :
    Spec (StmtTranslated (.assignStmt lhs tok rhs)) (Stmt.Supported (.assignStmt lhs tok rhs))
      (Stmt.accesses (.assignStmt lhs tok rhs)) (evalStmt (.assignStmt lhs tok rhs)) := by
  by_cases hshape : (tok = .assign ∨ tok = .define) ∧ ∃ z e, lhs = [.ident z] ∧ rhs = [e]
  · obtain ⟨htok, z, e, rfl, rfl⟩ := hshape
    have hspec := (spec_expr e).bind fun exprRes =>
      (spec_locate z).map fun a => exprRes ++ ("pop ".toList ++ itoa a ++ ['\n'])
    refine hspec.congr (fun T => ?_) ?_
    · rw [and_reading evalExpr_of_translated]
      simp [StmtTranslated, htok]
    · simp [Stmt.Supported, htok]
  · refine spec_false (fun T h => hshape ?_) fun h => hshape ?_
    · obtain ⟨htok, z, e, hl, hr, -⟩ := h
      exact ⟨htok, z, e, hl, hr⟩
    · obtain ⟨htok, z, e, hl, hr, -⟩ := h
      exact ⟨htok, z, e, hl, hr⟩

mutual

/-- What is supported is translated, and the names that it assigns are added to the table. -/
theorem stmt_spec : ∀ s : Stmt, Spec (StmtTranslated s) s.Supported s.accesses (evalStmt s)
  | .returnStmt results => spec_return results
  | .assignStmt lhs tok rhs => spec_assign lhs tok rhs
  | .ifStmt init cond body els => by
    have hspec := (spec_expr cond).bind fun sbcond => (block_spec body).bind fun sbif =>
      (stmt_spec els).map fun sbelse => sbcond ++ "jeqz l2\n".toList ++ "label l1\n".toList ++ sbif ++
        "label l2\n".toList ++ sbelse
    by_cases hinit : init = .nil
    · refine hspec.congr (fun T => ?_) ?_
      · rw [and_reading evalExpr_of_translated]
        simp [StmtTranslated, hinit]
      · simp [Stmt.Supported, hinit]
    · exact spec_false (fun T h => hinit h.1) fun h => hinit h.1
  | .forStmt init cond post body => by
    have hspec := (spec_cond cond).bind fun sbcond => (block_spec body).map fun sbbody =>
      "jump l2\n".toList ++ "label l1\n".toList ++ sbbody ++ "label l2\n".toList ++ sbcond ++
        "pushi 1\nneq\njeqz l1\n".toList
    by_cases hnil : init = .nil ∧ post = .nil
    · refine hspec.congr (fun T => ?_) ?_
      · have hcond : (cond = .nil ∨ ExprTranslated T cond) → ∃ t, evalExpr T cond = .ok t := by
          rintro (rfl | h)
          · exact ⟨[], rfl⟩
          · exact evalExpr_of_translated h
        rw [and_reading hcond]
        simp [StmtTranslated, hnil]
      · simp [Stmt.Supported, hnil]
    · exact spec_false (fun T h => hnil ⟨h.1, h.2.1⟩) fun h => hnil ⟨h.1, h.2.1⟩
  | .blockStmt list => block_spec list
  | .declStmt tok names values => spec_pure fun T => by simp [StmtTranslated, Stmt.Supported]
  | .emptyStmt => spec_pure fun T => by simp [StmtTranslated, Stmt.Supported]
  | .other => spec_pure fun T => by simp [StmtTranslated, Stmt.Supported]
  | .nil => spec_pure fun T => by simp [StmtTranslated, Stmt.Supported]

theorem block_spec : ∀ list : List Stmt,
    Spec (BlockTranslated list) (BlockSupported list) (blockAccesses list) (evalBlock list)
  | [] => spec_pure fun T => by simp [BlockTranslated, BlockSupported]
  | s :: rest => by
    refine ((stmt_spec s).round (block_spec rest)).congr (fun T => ?_) ?_
    · rw [BlockTranslated]
    · rw [BlockSupported]

end

/-! ## Errors -/

/-- A block returns no error. -/
theorem evalBlock_no_error (list : List Stmt) (T T' : Table) (e : Error) :
    evalBlock list T ≠ some (.error e, T') := by
  induction list generalizing T with
  | nil => exact fun h => nomatch h
  | cons s rest ih =>
    intro h
    simp only [evalBlock, evalRound] at h
    split at h
    · cases h
    · cases h
    · split at h
      · cases h
      · next heq =>
        cases h
        exact ih _ heq
      · cases h

/-- **`compile` returns no error.** -/
theorem compile_no_error (node : FuncDecl) (T T' : Table) (e : Error) :
    compile node T ≠ some (.error e, T') :=
  evalBlock_no_error node.body T.withParams T' e

/-- **Exactly the supported bodies are compiled without silent loss.** -/
theorem noSilentMiscompilation_iff (T : Table) (node : FuncDecl) :
    NoSilentMiscompilation T node ↔
      BlockSupported node.body ∧ NamesKnown T.withParams.Has (blockAccesses node.body) := by
  rw [← (block_spec node.body).iff T.withParams]
  constructor
  · rintro ⟨-, herr⟩
    by_contra h
    obtain ⟨e, T', he⟩ := herr h
    exact compile_no_error node T T' e he
  · exact fun h => ⟨fun _ _ _ => h, fun hn => absurd h hn⟩

/-- The body `x += 1; return x`. -/
def addAssignBody : List Stmt :=
  [.assignStmt [.ident nameX] (.opAssign .add) [.basicLit "1".toList], .returnStmt [.ident nameX]]

/-- It is compiled as `x = 1; return x`, and no error is returned. -/
theorem addAssign_miscompiled :
    (∃ T, compile ⟨addAssignBody⟩ Table.initial =
      some (.ok "pushi 1\npop 1\npush 1\npop 0\nhalt\n".toList, T)) ∧
    ¬ NoSilentMiscompilation Table.initial ⟨addAssignBody⟩ := by
  refine ⟨⟨_, rfl⟩, ?_⟩
  rintro ⟨-, herr⟩
  obtain ⟨e, T', he⟩ := herr fun h => by
    obtain ⟨htok | htok, -⟩ := h.1
    · cases htok
    · cases htok
  exact compile_no_error _ _ _ _ he

end Csapp.Compiler
