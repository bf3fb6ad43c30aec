import Csapp.Compiler.StackVm

/-!
# Compiler.Semantics — what the supported function bodies mean

The fragment of the language that the compiler is for: `var` declarations, assignments and returns, with
at most one loop (`LoopProgram`) or one conditional (`IfProgram`) among them.  Its meaning is given in its
own terms, over stores of bytes: literals and arithmetic are mod 256, a truth value is the byte 0 or 1, a
division by zero is a fault.  `stmts` are the syntax trees that the compiler is handed.
-/

namespace Csapp.Compiler

open Csapp.Lib

abbrev nameX : Text := "x".toList
abbrev nameY : Text := "y".toList

/-! ## Syntax -/

inductive BinOp
  | add | sub | mul | quo | eql | lss | gtr
  deriving DecidableEq

inductive SExpr
  | lit (n : ℕ)
  | var (name : Text)
  | bin (l : SExpr) (op : BinOp) (r : SExpr)
  | paren (e : SExpr)

/-- An assignment, with `:=` where `define` is true and `=` otherwise, or a return. -/
inductive Action
  | assign (name : Text) (define : Bool) (e : SExpr)
  | ret (e : SExpr)

inductive Item
  | var (names : List Text)
  | act (a : Action)

structure LoopProgram where
  before : List Item
  loop : Option (SExpr × List Action)
  after : List Item
  result : SExpr

structure Branch where
  cond : SExpr
  body : List Action
  els : Option (List Action)

structure IfProgram where
  before : List Action
  branch : Option Branch
  after : List Action
  result : SExpr

/-! ## Stores and expressions -/

abbrev Store := Text → UInt8

def Store.set (σ : Store) (z : Text) (v : UInt8) : Store := fun k => if k = z then v else σ k

/-- The store of a call: every variable but the parameters starts at 0. -/
def Store.start (x y : UInt8) : Store := fun k => if k = nameX then x else if k = nameY then y else 0

def BinOp.apply (a b : UInt8) : BinOp → Option UInt8
  | .add => some (a + b)
  | .sub => some (a - b)
  | .mul => some (a * b)
  | .quo => if b = 0 then none else some (a / b)
  | .eql => some (bit (a == b))
  | .lss => some (bit (a < b))
  | .gtr => some (bit (a > b))

def SExpr.eval (σ : Store) : SExpr → Option UInt8
  | .lit n => some (UInt8.ofNat n)
  | .var z => some (σ z)
  | .bin l op r => do
    let a ← l.eval σ
    let b ← r.eval σ
    op.apply a b
  | .paren e => e.eval σ

/-! ## Statements -/

/-- How a piece of a body ends: it goes on, returns, or divides by zero. -/
inductive Flow
  | next (σ : Store)
  | ret (v : UInt8)
  | fault

def Flow.bind (f : Flow) (k : Store → Flow) : Flow :=
  match f with
  | .next σ => k σ
  | .ret v => .ret v
  | .fault => .fault

/-- Goes on with the value of `e`, if it has one. -/
def SExpr.bind (e : SExpr) (σ : Store) (k : UInt8 → Flow) : Flow :=
  match e.eval σ with
  | none => .fault
  | some v => k v

def Action.run (σ : Store) : Action → Flow
  | .assign z _ e => e.bind σ fun v => .next (σ.set z v)
  | .ret e => e.bind σ .ret

def runActions : List Action → Store → Flow
  | [], σ => .next σ
  | a :: as, σ => (a.run σ).bind (runActions as)

/-- A declaration sets its variables to zero. -/
def Item.run (σ : Store) : Item → Flow
  | .var names => .next fun k => if k ∈ names then 0 else σ k
  | .act a => a.run σ

def runItems : List Item → Store → Flow
  | [], σ => .next σ
  | i :: is, σ => (i.run σ).bind (runItems is)

/-- The runs of a loop, which may have none. -/
inductive LoopRuns (cond : SExpr) (body : List Action) : Store → Flow → Prop
  | fault {σ : Store} : cond.eval σ = none → LoopRuns cond body σ .fault
  | done {σ : Store} : cond.eval σ = some 0 → LoopRuns cond body σ (.next σ)
  | leave {σ : Store} {c : UInt8} : cond.eval σ = some c → c ≠ 0 →
      (∀ σ', runActions body σ ≠ .next σ') → LoopRuns cond body σ (runActions body σ)
  | again {σ σ' : Store} {c : UInt8} {f : Flow} : cond.eval σ = some c → c ≠ 0 →
      runActions body σ = .next σ' → LoopRuns cond body σ' f → LoopRuns cond body σ f

/-- A block with variables of its own: `hidden z` is the value of the outer variable `z` where a `:=` of the
block has declared another one, and is what `z` has again after the block. -/
def runBlock : List Action → (hidden : Text → Option UInt8) → Store → Flow
  | [], hidden, σ => .next fun z => (hidden z).getD (σ z)
  | .assign z define e :: as, hidden, σ => e.bind σ fun v =>
    runBlock as (fun k => if define ∧ k = z then some (σ z) else hidden k) (σ.set z v)
  | .ret e :: _, _, σ => e.bind σ .ret

/-- One of the two blocks runs; a missing `else` is an empty one. -/
def Branch.run (b : Branch) (σ : Store) : Flow :=
  b.cond.bind σ fun c => runBlock (if c = 0 then b.els.getD [] else b.body) (fun _ => none) σ

def runBranch (branch : Option Branch) (σ : Store) : Flow :=
  match branch with
  | none => .next σ
  | some b => b.run σ

/-! ## Function bodies -/

/-- The statements after the loop, with the final return. -/
def runTail (after : List Item) (result : SExpr) (σ : Store) : Flow :=
  (runItems after σ).bind fun σ' => (Action.ret result).run σ'

/-- The loop, where there is one, and what follows it. -/
def LoopProgram.LoopEnds (p : LoopProgram) (σ : Store) (f : Flow) : Prop :=
  match p.loop with
  | none => runTail p.after p.result σ = f
  | some (cond, body) => ∃ g, LoopRuns cond body σ g ∧ g.bind (runTail p.after p.result) = f

/-- **Byte semantics of a body with a loop**: called with `x` and `y`, it terminates with the value `v`. -/
def LoopProgram.Returns (p : LoopProgram) (x y v : UInt8) : Prop :=
  runItems p.before (Store.start x y) = .ret v ∨
    ∃ σ, runItems p.before (Store.start x y) = .next σ ∧ p.LoopEnds σ (.ret v)

/-- **Byte semantics of a body with a conditional**, which always ends. -/
def IfProgram.run (p : IfProgram) (x y : UInt8) : Flow :=
  (runActions p.before (Store.start x y)).bind fun σ =>
    (runBranch p.branch σ).bind (runActions (p.after ++ [.ret p.result]))

/-! ## Syntax trees -/

def BinOp.token : BinOp → Op
  | .add => .add
  | .sub => .sub
  | .mul => .mul
  | .quo => .quo
  | .eql => .eql
  | .lss => .lss
  | .gtr => .gtr

def SExpr.node : SExpr → Expr
  | .lit n => .basicLit (itoa n)
  | .var z => .ident z
  | .bin l op r => .binaryExpr l.node op.token r.node
  | .paren e => .parenExpr e.node

def Action.stmt : Action → Stmt
  | .assign z define e => .assignStmt [.ident z] (if define then .define else .assign) [e.node]
  | .ret e => .returnStmt [e.node]

def Item.stmt : Item → Stmt
  | .var names => .declStmt .var names []
  | .act a => a.stmt

def loopStmts : Option (SExpr × List Action) → List Stmt
  | none => []
  | some (cond, body) => [.forStmt .nil cond.node .nil (body.map Action.stmt)]

def elseStmt : Option (List Action) → Stmt
  | none => .nil
  | some as => .blockStmt (as.map Action.stmt)

def branchStmts : Option Branch → List Stmt
  | none => []
  | some b => [.ifStmt .nil b.cond.node (b.body.map Action.stmt) (elseStmt b.els)]

def LoopProgram.func (p : LoopProgram) : FuncDecl :=
  ⟨p.before.map Item.stmt ++ (loopStmts p.loop ++ (p.after.map Item.stmt ++ [.returnStmt [p.result.node]]))⟩

def IfProgram.func (p : IfProgram) : FuncDecl :=
  ⟨p.before.map Action.stmt ++
    (branchStmts p.branch ++ (p.after.map Action.stmt ++ [.returnStmt [p.result.node]]))⟩

/-! ## Types -/

inductive Ty
  | byte
  | bool
  deriving DecidableEq

def BinOp.type : BinOp → Ty → Ty → Option Ty
  | .add, .byte, .byte => some .byte
  | .sub, .byte, .byte => some .byte
  | .mul, .byte, .byte => some .byte
  | .quo, .byte, .byte => some .byte
  | .lss, .byte, .byte => some .bool
  | .gtr, .byte, .byte => some .bool
  | .eql, s, t => if s = t then some .bool else none
  | _, _, _ => none

/-- A literal is a constant of type `int`, which no constant of type `byte` exceeds. -/
def SExpr.type (Γ : Text → Ty) : SExpr → Option Ty
  | .lit n => if n < 2 ^ 63 then some .byte else none
  | .var z => some (Γ z)
  | .bin l op r => do
    let s ← l.type Γ
    let t ← r.type Γ
    op.type s t
  | .paren e => e.type Γ

def Action.WellTyped (Γ : Text → Ty) : Action → Prop
  | .assign z _ e => e.type Γ = some (Γ z)
  | .ret e => e.type Γ = some .byte

def Item.WellTyped (Γ : Text → Ty) : Item → Prop
  | .var _ => True
  | .act a => a.WellTyped Γ

structure LoopProgram.WellTyped (Γ : Text → Ty) (p : LoopProgram) : Prop where
  paramX : Γ nameX = .byte
  paramY : Γ nameY = .byte
  before : ∀ i ∈ p.before, i.WellTyped Γ
  loop : ∀ cond body, p.loop = some (cond, body) →
    cond.type Γ = some .bool ∧ ∀ a ∈ body, a.WellTyped Γ
  after : ∀ i ∈ p.after, i.WellTyped Γ
  result : p.result.type Γ = some .byte

/-! ## Literals -/

/-- Every literal is in the range of `int`. -/
def SExpr.LitsFit : SExpr → Prop
  | .lit n => n < 2 ^ 63
  | .var _ => True
  | .bin l _ r => l.LitsFit ∧ r.LitsFit
  | .paren e => e.LitsFit

def Action.LitsFit : Action → Prop
  | .assign _ _ e => e.LitsFit
  | .ret e => e.LitsFit

structure Branch.LitsFit (b : Branch) : Prop where
  cond : b.cond.LitsFit
  body : ∀ a ∈ b.body, a.LitsFit
  els : ∀ a ∈ b.els.getD [], a.LitsFit

structure IfProgram.LitsFit (p : IfProgram) : Prop where
  before : ∀ a ∈ p.before, a.LitsFit
  branch : ∀ b, p.branch = some b → b.LitsFit
  after : ∀ a ∈ p.after, a.LitsFit
  result : p.result.LitsFit

/-! ## Names in the order of the text -/

inductive Access
  | read (z : Text)
  | decl (z : Text)
  | write (z : Text)
  deriving DecidableEq

def SExpr.accesses : SExpr → List Access
  | .lit _ => []
  | .var z => [.read z]
  | .bin l _ r => l.accesses ++ r.accesses
  | .paren e => e.accesses

def Action.accesses : Action → List Access
  | .assign z define e => e.accesses ++ ((if define then [.decl z] else []) ++ [.write z])
  | .ret e => e.accesses

def actionsAccesses (as : List Action) : List Access := as.flatMap Action.accesses

def Item.accesses : Item → List Access
  | .var names => names.map .decl
  | .act a => a.accesses

def itemsAccesses (is : List Item) : List Access := is.flatMap Item.accesses

/-- A loop condition counts as before its body. -/
def loopAccesses : Option (SExpr × List Action) → List Access
  | none => []
  | some (cond, body) => cond.accesses ++ actionsAccesses body

def branchAccesses : Option Branch → List Access
  | none => []
  | some b => b.cond.accesses ++ (actionsAccesses b.body ++ actionsAccesses (b.els.getD []))

def LoopProgram.accesses (p : LoopProgram) : List Access :=
  itemsAccesses p.before ++ (loopAccesses p.loop ++ (itemsAccesses p.after ++ p.result.accesses))

def IfProgram.accesses (p : IfProgram) : List Access :=
  actionsAccesses p.before ++
    (branchAccesses p.branch ++ actionsAccesses (p.after ++ [.ret p.result]))

/-- Every name is declared once and before it is assigned, and read only where it has been assigned
before; `declared` and `assigned` are the names so far. -/
def WellScoped (declared assigned : List Text) : List Access → Prop
  | [] => True
  | .read z :: rest => z ∈ assigned ∧ WellScoped declared assigned rest
  | .decl z :: rest => z ∉ declared ∧ WellScoped (z :: declared) assigned rest
  | .write z :: rest => z ∈ declared ∧ WellScoped declared (z :: assigned) rest

instance decidableWellScoped : (declared assigned : List Text) → (acc : List Access) →
    Decidable (WellScoped declared assigned acc)
  | _, _, [] => .isTrue trivial
  | declared, assigned, .read z :: rest =>
    have := decidableWellScoped declared assigned rest
    inferInstanceAs (Decidable (z ∈ assigned ∧ WellScoped declared assigned rest))
  | declared, assigned, .decl z :: rest =>
    have := decidableWellScoped (z :: declared) assigned rest
    inferInstanceAs (Decidable (z ∉ declared ∧ WellScoped (z :: declared) assigned rest))
  | declared, assigned, .write z :: rest =>
    have := decidableWellScoped declared (z :: assigned) rest
    inferInstanceAs (Decidable (z ∈ declared ∧ WellScoped declared (z :: assigned) rest))

def LoopProgram.WellScoped (p : LoopProgram) : Prop :=
  Compiler.WellScoped [nameX, nameY] [nameX, nameY] p.accesses

instance (p : LoopProgram) : Decidable p.WellScoped := decidableWellScoped _ _ _

/-- Every name that is read is a parameter or has been assigned before. -/
def AssignedBefore (assigned : List Text) : List Access → Prop
  | [] => True
  | .read z :: rest => z ∈ assigned ∧ AssignedBefore assigned rest
  | .decl _ :: rest => AssignedBefore assigned rest
  | .write z :: rest => AssignedBefore (z :: assigned) rest

instance decidableAssignedBefore : (assigned : List Text) → (acc : List Access) →
    Decidable (AssignedBefore assigned acc)
  | _, [] => .isTrue trivial
  | assigned, .read z :: rest =>
    have := decidableAssignedBefore assigned rest
    inferInstanceAs (Decidable (z ∈ assigned ∧ AssignedBefore assigned rest))
  | assigned, .decl _ :: rest => decidableAssignedBefore assigned rest
  | assigned, .write z :: rest => decidableAssignedBefore (z :: assigned) rest

def IfProgram.AssignedBefore (p : IfProgram) : Prop :=
  Compiler.AssignedBefore [nameX, nameY] p.accesses

instance (p : IfProgram) : Decidable p.AssignedBefore := decidableAssignedBefore _ _

/-- `names` with `z`, if it is not there and no parameter. -/
def addName (names : List Text) (z : Text) : List Text :=
  if z = nameX ∨ z = nameY ∨ z ∈ names then names else names ++ [z]

/-- `names` with the variables that are assigned, in the order of their first assignment. -/
def addNames (names : List Text) : List Access → List Text
  | [] => names
  | .write z :: rest => addNames (addName names z) rest
  | _ :: rest => addNames names rest

/-- The variables other than `x` and `y` that a body assigns. -/
def LoopProgram.locals (p : LoopProgram) : List Text := addNames [] p.accesses

def IfProgram.locals (p : IfProgram) : List Text := addNames [] p.accesses

/-! ## The operand stack -/

def SExpr.depth : SExpr → ℕ
  | .lit _ => 1
  | .var _ => 1
  | .bin l _ r => max l.depth (1 + r.depth)
  | .paren e => e.depth

def Action.depth : Action → ℕ
  | .assign _ _ e => e.depth
  | .ret e => e.depth

def actionsDepth (as : List Action) : ℕ := (as.map Action.depth).foldr max 0

def Item.depth : Item → ℕ
  | .var _ => 0
  | .act a => a.depth

def itemsDepth (is : List Item) : ℕ := (is.map Item.depth).foldr max 0

/-- The loop test compares the condition with a 1 above it on the stack. -/
def loopDepth : Option (SExpr × List Action) → ℕ
  | none => 0
  | some (cond, body) => max (max cond.depth 2) (actionsDepth body)

def branchDepth : Option Branch → ℕ
  | none => 0
  | some b => max b.cond.depth (max (actionsDepth b.body) (actionsDepth (b.els.getD [])))

/-- The deepest operand stack of a body. -/
def LoopProgram.depth (p : LoopProgram) : ℕ :=
  max (itemsDepth p.before) (max (loopDepth p.loop) (max (itemsDepth p.after) p.result.depth))

def IfProgram.depth (p : IfProgram) : ℕ :=
  max (actionsDepth p.before)
    (max (branchDepth p.branch) (actionsDepth (p.after ++ [.ret p.result])))

end Csapp.Compiler
