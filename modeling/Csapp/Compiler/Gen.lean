import Csapp.Compiler.Table

/-!
# Compiler.Gen — the instructions behind the assembly text

The text that `compile` returns for a body of the fragment is a list of instructions, line by line
(`render`).  `Emits` says of an evaluation that it writes given instructions and adds the names that the
piece of source assigns; the statements of a block compose (`Emits.cons`).
-/

namespace Csapp.Compiler

open Csapp.Lib

/-! ## Instructions -/

inductive Label
  | l1
  | l2
  deriving DecidableEq

def Label.text : Label → Text
  | .l1 => "l1".toList
  | .l2 => "l2".toList

inductive Instr
  | push (a : ℕ)
  | pushi (b : UInt8)
  | pop (a : ℕ)
  | binary (op : BinOp)
  | neq
  | jump (l : Label)
  | jeqz (l : Label)
  | label (l : Label)
  | halt

def BinOp.text : BinOp → Text
  | .add => "add".toList
  | .sub => "sub".toList
  | .mul => "mul".toList
  | .quo => "div".toList
  | .eql => "eq".toList
  | .lss => "lt".toList
  | .gtr => "gt".toList

def Instr.line : Instr → Text
  | .push a => "push ".toList ++ itoa a
  | .pushi b => "pushi ".toList ++ itoa b.toNat
  | .pop a => "pop ".toList ++ itoa a
  | .binary op => op.text
  | .neq => "neq".toList
  | .jump l => "jump ".toList ++ l.text
  | .jeqz l => "jeqz ".toList ++ l.text
  | .label l => "label ".toList ++ l.text
  | .halt => "halt".toList

def render (code : List Instr) : Text := unlines (code.map Instr.line)

@[simp] theorem render_append (c c' : List Instr) : render (c ++ c') = render c ++ render c' := by
  simp [render]

theorem render_singleton (i : Instr) : render [i] = i.line ++ ['\n'] := by
  simp [render]

/-! ## The code of a body, for the final list of names -/

/-- The code of an expression whose variables are at the addresses `loc`. -/
def SExpr.codeAt (loc : Text → ℕ) : SExpr → List Instr
  | .lit n => [.pushi (UInt8.ofNat n)]
  | .var z => [.push (loc z)]
  | .bin l op r => l.codeAt loc ++ r.codeAt loc ++ [.binary op]
  | .paren e => e.codeAt loc

section Code

variable (names : List Text)

def SExpr.code : SExpr → List Instr
  | .lit n => [.pushi (UInt8.ofNat n)]
  | .var z => [.push (addr names z)]
  | .bin l op r => l.code ++ r.code ++ [.binary op]
  | .paren e => e.code

theorem SExpr.code_eq (e : SExpr) : e.code names = e.codeAt (addr names) := by
  induction e with
  | lit n => rfl
  | var z => rfl
  | bin l op r ihl ihr => rw [SExpr.code, SExpr.codeAt, ihl, ihr]
  | paren e ih => exact ih

def Action.code : Action → List Instr
  | .assign z _ e => e.code names ++ [.pop (addr names z)]
  | .ret e => e.code names ++ [.pop 0, .halt]

def actionsCode (as : List Action) : List Instr := as.flatMap (Action.code names)

def Item.code : Item → List Instr
  | .var _ => []
  | .act a => a.code names

def itemsCode (is : List Item) : List Instr := is.flatMap (Item.code names)

/-- The loop test: the condition is inverted, since only `jeqz` jumps conditionally. -/
def testCode (cond : SExpr) : List Instr := cond.code names ++ [.pushi 1, .neq, .jeqz .l1]

def loopCode : Option (SExpr × List Action) → List Instr
  | none => []
  | some (cond, body) =>
    [.jump .l2, .label .l1] ++ actionsCode names body ++ [.label .l2] ++ testCode names cond

def branchCode : Option Branch → List Instr
  | none => []
  | some b =>
    b.cond.code names ++ [.jeqz .l2, .label .l1] ++ actionsCode names b.body ++ [.label .l2] ++
      actionsCode names (b.els.getD [])

def tailCode (after : List Item) (result : SExpr) : List Instr :=
  itemsCode names after ++ (Action.ret result).code names

def LoopProgram.code (p : LoopProgram) : List Instr :=
  itemsCode names p.before ++ (loopCode names p.loop ++ tailCode names p.after p.result)

def IfProgram.code (p : IfProgram) : List Instr :=
  actionsCode names p.before ++
    (branchCode names p.branch ++ actionsCode names (p.after ++ [.ret p.result]))

end Code

/-! ## Reads in the scope of a list of names -/

/-- Every name that is read is known where it is read. -/
def Readable (names : List Text) : List Access → Prop
  | [] => True
  | .read z :: rest => Known names z ∧ Readable names rest
  | .decl _ :: rest => Readable names rest
  | .write z :: rest => Readable (addName names z) rest

theorem addNames_append (names : List Text) (as bs : List Access) :
    addNames names (as ++ bs) = addNames (addNames names as) bs := by
  induction as generalizing names with
  | nil => rfl
  | cons a as ih =>
    cases a with
    | read z => exact ih names
    | decl z => exact ih names
    | write z => exact ih (addName names z)

theorem readable_append {names : List Text} {as bs : List Access} :
    Readable names (as ++ bs) ↔ Readable names as ∧ Readable (addNames names as) bs := by
  induction as generalizing names with
  | nil => simp [Readable, addNames]
  | cons a as ih =>
    cases a with
    | read z => simp only [List.cons_append, Readable, addNames, ih, and_assoc]
    | decl z => exact ih
    | write z => exact ih

theorem prefix_addNames (names : List Text) (as : List Access) : names <+: addNames names as := by
  induction as generalizing names with
  | nil => exact List.prefix_refl names
  | cons a as ih =>
    cases a with
    | read z => exact ih names
    | decl z => exact ih names
    | write z => exact (prefix_addName names z).trans (ih _)

/-- An expression only reads. -/
theorem addNames_expr (names : List Text) (e : SExpr) : addNames names e.accesses = names := by
  induction e with
  | lit n => rfl
  | var z => rfl
  | bin l op r ihl ihr => rw [SExpr.accesses, addNames_append, ihl, ihr]
  | paren e ih => exact ih

theorem assignedBefore_of_wellScoped {declared assigned : List Text} {as : List Access}
    (h : WellScoped declared assigned as) : AssignedBefore assigned as := by
  induction as generalizing declared assigned with
  | nil => trivial
  | cons a as ih =>
    cases a with
    | read z => exact ⟨h.1, ih h.2⟩
    | decl z => exact ih h.2
    | write z => exact ih h.2

theorem readable_of_assignedBefore {assigned names : List Text} {as : List Access}
    (h : AssignedBefore assigned as) (hk : ∀ z ∈ assigned, Known names z) : Readable names as := by
  induction as generalizing assigned names with
  | nil => trivial
  | cons a as ih =>
    cases a with
    | read z => exact ⟨hk z h.1, ih h.2 hk⟩
    | decl z => exact ih h hk
    | write z =>
      refine ih h fun k hm => ?_
      rcases List.mem_cons.mp hm with rfl | hm
      · exact known_addName names k
      · exact (hk k hm).mono (prefix_addName names z)

/-- At the start only the parameters may be read. -/
theorem readable_start {as : List Access} (h : AssignedBefore [nameX, nameY] as) : Readable [] as := by
  refine readable_of_assignedBefore h fun z hz => ?_
  simpa [Known] using hz

/-! ## What the functions of the compiler emit -/

/-- `ev` writes the instructions `code`, which refer to the final list of names, and adds the names of
`acc`, from every table in which `acc` may read. -/
def Emits (final : List Text) (ev : Eval Text) (code : List Instr) (acc : List Access) : Prop :=
  ∀ names, addNames names acc <+: final → Readable names acc →
    ev (tableOf names) = some (.ok (render code), tableOf (addNames names acc))

variable {final : List Text}

theorem toByte_natCast (n : ℕ) : toByte (n : ℤ) = UInt8.ofNat n := by
  have h : ((n : ℤ) % 256).toNat = n % 256 := by omega
  rw [toByte, h]
  exact UInt8.ofNat_mod_size

theorem getOpAsStringBuilder_token (op : BinOp) :
    getOpAsStringBuilder op.token = render [.binary op] := by
  cases op <;> rfl

theorem SExpr.litsFit_of_type {Γ : Text → Ty} (e : SExpr) : ∀ t, e.type Γ = some t → e.LitsFit := by
  induction e with
  | lit n =>
    intro t ht
    unfold SExpr.type at ht
    split at ht
    · next h => exact h
    · cases ht
  | var z => exact fun _ _ => trivial
  | bin l op r ihl ihr =>
    intro t ht
    obtain ⟨s, hs, ht⟩ := Option.bind_eq_some_iff.mp ht
    obtain ⟨u, hu, -⟩ := Option.bind_eq_some_iff.mp ht
    exact ⟨ihl s hs, ihr u hu⟩
  | paren e ih => exact ih

theorem Action.litsFit_of_wellTyped {Γ : Text → Ty} {a : Action} (h : a.WellTyped Γ) : a.LitsFit := by
  cases a with
  | assign z define e => exact e.litsFit_of_type _ h
  | ret e => exact e.litsFit_of_type _ h

/-- The text of an expression whose names are in the table. -/
theorem evalExpr_codeAt {T : Table} {loc : Text → ℕ} (e : SExpr) :
    e.LitsFit → (∀ z, .read z ∈ e.accesses → T.varToMem z = some (loc z)) →
      evalExpr T e.node = .ok (render (e.codeAt loc)) := by
  induction e with
  | lit n =>
    intro hn _
    simp only [SExpr.node, evalExpr, atoi_itoa hn, toByte_natCast, SExpr.codeAt, render_singleton]
    rfl
  | var z =>
    rintro - hloc
    simp only [SExpr.node, evalExpr, hloc z List.mem_cons_self, SExpr.codeAt, render_singleton]
    rfl
  | bin l op r ihl ihr =>
    intro hlit hloc
    have hl := ihl hlit.1 fun z hz => hloc z (List.mem_append_left _ hz)
    have hr := ihr hlit.2 fun z hz => hloc z (List.mem_append_right _ hz)
    simp only [SExpr.node, evalExpr, hl, hr, getOpAsStringBuilder_token, SExpr.codeAt, render_append]
    rfl
  | paren e ih => exact ih

theorem Readable.known {names : List Text} {e : SExpr} (h : Readable names e.accesses) :
    ∀ z, .read z ∈ e.accesses → Known names z := by
  induction e with
  | lit n =>
    intro z hz
    cases hz
  | var y =>
    intro z hz
    cases List.mem_singleton.mp hz
    exact h.1
  | bin l op r ihl ihr =>
    intro z hz
    obtain ⟨hl, hr⟩ := readable_append.mp h
    rw [addNames_expr] at hr
    exact (List.mem_append.mp hz).elim (ihl hl z) (ihr hr z)
  | paren e ih => exact ih h

/-- No expression changes the table, and none fails whose names are known and whose literals are in range. -/
theorem evalExpr_node {names : List Text} (hp : names <+: final) (e : SExpr) :
    e.LitsFit → Readable names e.accesses →
      evalExpr (tableOf names) e.node = .ok (render (e.code final)) := by
  intro hlit hr
  rw [SExpr.code_eq]
  refine evalExpr_codeAt e hlit fun z hz => ?_
  rw [tableOf_known (hr.known z hz), addr_stable (hr.known z hz) hp]

theorem emits_reading {e : SExpr} (he : e.LitsFit) :
    Emits final (reading (evalExpr · e.node)) (e.code final) e.accesses := by
  intro names hp hr
  rw [addNames_expr] at hp ⊢
  rw [reading_apply, evalExpr_node hp e he hr]

theorem emits_pure : Emits final (pure []) [] [] := fun _ _ _ => rfl

/-- The text of one evaluation in front of what a second one, from the table left behind, makes of it. -/
theorem Emits.bind {ev : Eval Text} {k : Text → Eval Text} {c c' : List Instr} {a a' : List Access}
    (h : Emits final ev c a) (hk : Emits final (k (render c)) c' a') :
    Emits final (ev >>= k) c' (a ++ a') := by
  intro names hp hr
  rw [addNames_append] at hp ⊢
  obtain ⟨hr₁, hr₂⟩ := readable_append.mp hr
  rw [Eval.bind_ok (h names ((prefix_addNames _ a').trans hp) hr₁)]
  exact hk _ hp hr₂

/-- A last evaluation, of whose text the result is made. -/
theorem Emits.bind_pure {ev : Eval Text} {g : Text → Text} {c c' : List Instr} {a : List Access}
    (h : Emits final ev c a) (hg : g (render c) = render c') :
    Emits final (ev >>= fun res => pure (g res)) c' a := by
  intro names hp hr
  rw [Eval.bind_ok (h names hp hr), Eval.pure_apply, hg]

theorem emits_action {a : Action} (h : a.LitsFit) :
    Emits final (evalStmt a.stmt) (a.code final) a.accesses := by
  cases a with
  | ret e =>
    have htext : render (e.code final) ++ "pop 0\nhalt\n".toList = render ((Action.ret e).code final) := by
      rw [Action.code, render_append]
      rfl
    exact (emits_reading h).bind_pure htext
  | assign z define e =>
    intro names hp hr
    have hacc : ∀ names, addNames names ((if define then [Access.decl z] else []) ++ [.write z]) =
        addName names z := fun names => by cases define <;> rfl
    rw [Action.accesses, addNames_append, addNames_expr, hacc] at hp ⊢
    obtain ⟨hr, -⟩ := readable_append.mp hr
    have he : reading (evalExpr · e.node) (tableOf names) =
        some (.ok (render (e.code final)), tableOf names) := by
      rw [reading_apply, evalExpr_node ((prefix_addName names z).trans hp) e h hr]
    have hpop : render ((Action.assign z define e).code final) = render (e.code final) ++
        ("pop ".toList ++ itoa (addr (addName names z) z) ++ ['\n']) := by
      rw [Action.code, render_append, render_singleton, addr_stable (known_addName names z) hp]
      rfl
    rw [hpop]
    exact (Eval.bind_ok he).trans (Eval.bind_ok (locate_tableOf names z))

theorem emits_nil : Emits final (evalBlock []) [] [] := fun _ _ _ => rfl

theorem Emits.cons {s : Stmt} {ss : List Stmt} {c c' : List Instr} {a a' : List Access}
    (h : Emits final (evalStmt s) c a) (hs : Emits final (evalBlock ss) c' a') :
    Emits final (evalBlock (s :: ss)) (c ++ c') (a ++ a') := by
  intro names hp hr
  rw [addNames_append] at hp ⊢
  obtain ⟨hr₁, hr₂⟩ := readable_append.mp hr
  simp only [evalBlock, evalRound, h names ((prefix_addNames _ a').trans hp) hr₁, hs _ hp hr₂,
    render_append]

/-- Statements of one kind in front of a block. -/
theorem Emits.map_append {α : Type} {stmt : α → Stmt} {code : α → List Instr} {acc : α → List Access}
    {as : List α} (h : ∀ a ∈ as, Emits final (evalStmt (stmt a)) (code a) (acc a)) {ss : List Stmt}
    {c : List Instr} {b : List Access} (hs : Emits final (evalBlock ss) c b) :
    Emits final (evalBlock (as.map stmt ++ ss)) (as.flatMap code ++ c) (as.flatMap acc ++ b) := by
  induction as with
  | nil => exact hs
  | cons a as ih =>
    rw [List.map_cons, List.cons_append, List.flatMap_cons, List.flatMap_cons, List.append_assoc,
      List.append_assoc]
    exact (h a List.mem_cons_self).cons (ih fun b hb => h b (List.mem_cons_of_mem a hb))

theorem emits_actions {as : List Action} (h : ∀ a ∈ as, a.LitsFit) :
    Emits final (evalBlock (as.map Action.stmt)) (actionsCode final as) (actionsAccesses as) := by
  have hall : ∀ a ∈ as, Emits final (evalStmt a.stmt) (a.code final) a.accesses :=
    fun a ha => emits_action (h a ha)
  simpa [actionsCode, actionsAccesses] using Emits.map_append hall emits_nil

theorem emits_item {Γ : Text → Ty} {i : Item} (h : i.WellTyped Γ) :
    Emits final (evalStmt i.stmt) (i.code final) i.accesses := by
  cases i with
  | act a => exact emits_action (a.litsFit_of_wellTyped h)
  | var zs =>
    have hkeep : ∀ names, addNames names (zs.map Access.decl) = names := by
      intro names
      induction zs with
      | nil => rfl
      | cons z zs ih => exact ih trivial
    rintro names - -
    rw [Item.accesses, hkeep]
    rfl

/-- The final return, with the statements in front of it. -/
theorem emits_tail {Γ : Text → Ty} {after : List Item} {result : SExpr}
    (h : ∀ i ∈ after, i.WellTyped Γ) (hr : result.type Γ = some .byte) :
    Emits final (evalBlock (after.map Item.stmt ++ [.returnStmt [result.node]]))
      (tailCode final after result) (itemsAccesses after ++ result.accesses) := by
  have hret : Emits final (evalStmt (Action.ret result).stmt) ((Action.ret result).code final)
      result.accesses := emits_action (result.litsFit_of_type _ hr)
  have hlast := hret.cons emits_nil
  rw [List.append_nil, List.append_nil] at hlast
  exact Emits.map_append (fun i hi => emits_item (h i hi)) hlast

theorem emits_loop {cond : SExpr} {body : List Action} (hc : cond.LitsFit)
    (hb : ∀ a ∈ body, a.LitsFit) :
    Emits final (evalStmt (.forStmt .nil cond.node .nil (body.map Action.stmt)))
      (loopCode final (some (cond, body))) (loopAccesses (some (cond, body))) := by
  have htext : "jump l2\n".toList ++ "label l1\n".toList ++ render (actionsCode final body) ++
      "label l2\n".toList ++ render (cond.code final) ++ "pushi 1\nneq\njeqz l1\n".toList =
      render (loopCode final (some (cond, body))) := by
    simp only [loopCode, testCode, render_append, List.append_assoc]
    rfl
  exact (emits_reading hc).bind ((emits_actions hb).bind_pure htext)

theorem emits_else {els : Option (List Action)} (h : ∀ a ∈ els.getD [], a.LitsFit) :
    Emits final (evalStmt (elseStmt els)) (actionsCode final (els.getD []))
      (actionsAccesses (els.getD [])) := by
  cases els with
  | none => exact emits_pure
  | some as => exact emits_actions h

theorem emits_branch {b : Branch} (h : b.LitsFit) :
    Emits final (evalStmt (.ifStmt .nil b.cond.node (b.body.map Action.stmt) (elseStmt b.els)))
      (branchCode final (some b)) (branchAccesses (some b)) := by
  have htext : render (b.cond.code final) ++ "jeqz l2\n".toList ++ "label l1\n".toList ++
      render (actionsCode final b.body) ++ "label l2\n".toList ++
      render (actionsCode final (b.els.getD [])) = render (branchCode final (some b)) := by
    simp only [branchCode, render_append, List.append_assoc]
    rfl
  exact (emits_reading h.cond).bind ((emits_actions h.body).bind ((emits_else h.els).bind_pure htext))

/-! ## Whole bodies -/

/-- A block that emits is what `compile` returns in a fresh process. -/
theorem compile_of_emits {body : List Stmt} {code : List Instr} {acc : List Access}
    (h : Emits (addNames [] acc) (evalBlock body) code acc)
    (hs : AssignedBefore [nameX, nameY] acc) :
    compile ⟨body⟩ Table.initial = some (.ok (render code), tableOf (addNames [] acc)) := by
  have hc : compile ⟨body⟩ Table.initial = evalBlock body (tableOf []) := by
    rw [← initial_set_params]
    rfl
  rw [hc, h [] (List.prefix_refl _) (readable_start hs)]

/-- **The assembly of a body with a loop.** -/
theorem LoopProgram.compile_eq {Γ : Text → Ty} {p : LoopProgram} (ht : p.WellTyped Γ)
    (hs : p.WellScoped) :
    compile p.func Table.initial = some (.ok (render (p.code p.locals)), tableOf p.locals) := by
  refine compile_of_emits ?_ (assignedBefore_of_wellScoped hs)
  refine Emits.map_append (fun i hi => emits_item (ht.before i hi)) ?_
  have htail : Emits p.locals _ _ _ := emits_tail ht.after ht.result
  match hl : p.loop with
  | none => exact htail
  | some (cond, body) =>
    obtain ⟨hc, hb⟩ := ht.loop cond body hl
    exact (emits_loop (cond.litsFit_of_type _ hc) fun a ha => a.litsFit_of_wellTyped (hb a ha)).cons htail

/-- **The assembly of a body with a conditional.** -/
theorem IfProgram.compile_eq {p : IfProgram} (h : p.LitsFit) (hs : p.AssignedBefore) :
    compile p.func Table.initial = some (.ok (render (p.code p.locals)), tableOf p.locals) := by
  refine compile_of_emits ?_ hs
  refine Emits.map_append (fun a ha => emits_action (h.before a ha)) ?_
  have htail : Emits p.locals (evalBlock (p.after.map Action.stmt ++ [.returnStmt [p.result.node]]))
      (actionsCode p.locals (p.after ++ [.ret p.result]))
      (actionsAccesses (p.after ++ [.ret p.result])) := by
    have hall : ∀ a ∈ p.after ++ [.ret p.result], a.LitsFit := by
      intro a ha
      rcases List.mem_append.mp ha with ha | ha
      · exact h.after a ha
      · rw [List.mem_singleton.mp ha]
        exact h.result
    have : Emits p.locals _ _ _ := emits_actions hall
    rwa [List.map_append] at this
  match hb : p.branch with
  | none => exact htail
  | some b => exact (emits_branch (h.branch b hb)).cons htail

end Csapp.Compiler
