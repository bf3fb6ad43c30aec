import Csapp.Lib.Text

/-!
# Compiler.Compile — from the syntax tree of a function to assembly text

`compile`, `evalStmt` and `evalExpr` of `compile.go` over the nodes of `go/ast` that a function body is made
of.  The two package variables are the `Table` that every call reads and leaves behind; `none` is a panic
(an index out of range).  The type switches have no default branch, so a node that they do not name, and a
nil node, gives the empty text and no error.
-/

namespace Csapp.Compiler

open Csapp.Lib

/-! ## Syntax trees -/

/-- The binary operators of `go/token`. -/
inductive Op
  | add | sub | mul | quo | rem
  | and | or | xor | shl | shr | andNot
  | land | lor
  | eql | lss | gtr | neq | leq | geq
  deriving DecidableEq

inductive Expr
  | basicLit (value : Text)
  | ident (name : Text)
  | binaryExpr (x : Expr) (op : Op) (y : Expr)
  | parenExpr (x : Expr)
  /-- Every other expression: unary operators, calls, selectors, indexing, literals of composite types. -/
  | other
  /-- The nil interface: the condition of a bare `for`. -/
  | nil
  deriving DecidableEq

inductive AssignTok
  | assign
  | define
  | opAssign (op : Op)
  deriving DecidableEq

inductive DeclTok
  | const
  | type
  | var
  deriving DecidableEq

inductive Stmt
  | returnStmt (results : List Expr)
  | assignStmt (lhs : List Expr) (tok : AssignTok) (rhs : List Expr)
  | ifStmt (init : Stmt) (cond : Expr) (body : List Stmt) (els : Stmt)
  | forStmt (init : Stmt) (cond : Expr) (post : Stmt) (body : List Stmt)
  | blockStmt (list : List Stmt)
  | declStmt (tok : DeclTok) (names : List Text) (values : List Expr)
  | emptyStmt
  /-- Every other statement: `x++`, calls, switches, ranges, branches, labels. -/
  | other
  /-- The nil interface: a missing `else`, `Init` or `Post`. -/
  | nil

structure FuncDecl where
  body : List Stmt

/-! ## The package variables -/

structure Table where
  varToMem : Text → Option ℕ
  nextMemoryLocation : ℕ

/-- The table of a fresh process. -/
def Table.initial : Table := ⟨fun _ => none, 3⟩

/-- `varToMem[name] = a`. -/
def Table.set (T : Table) (name : Text) (a : ℕ) : Table :=
  { T with varToMem := fun n => if n = name then some a else T.varToMem n }

inductive Error
  /-- The error of `strconv.Atoi(num)`. -/
  | numError (num : Text) (err : NumError)
  | errorf (text : Text)
  deriving DecidableEq

/-- A result or an error, with the table left behind; `none` is a panic. -/
abbrev Eval (α : Type) := ExceptT Error (StateT Table Option) α

/-- What the table alone decides. -/
def reading {α : Type} (f : Table → Except Error α) : Eval α := fun T => some (f T, T)

/-- An index out of range. -/
def indexPanic {α : Type} : Eval α := fun _ => none

/-! ## Expressions -/

/-- `byte(i)`. -/
def toByte (i : ℤ) : UInt8 := UInt8.ofNat (i % 256).toNat

def getOpAsStringBuilder : Op → Text
  | .add => "add\n".toList
  | .sub => "sub\n".toList
  | .mul => "mul\n".toList
  | .quo => "div\n".toList
  | .eql => "eq\n".toList
  | .lss => "lt\n".toList
  | .gtr => "gt\n".toList
  | _ => []

def evalExpr (T : Table) : Expr → Except Error Text
  | .basicLit value =>
    match atoi value with
    | .error e => .error (.numError value e)
    | .ok i => .ok ("pushi ".toList ++ itoa (toByte i).toNat ++ ['\n'])
  | .ident name =>
    match T.varToMem name with
    | none => .error (.errorf "variable does not exist".toList)
    | some memoryLocation => .ok ("push ".toList ++ itoa memoryLocation ++ ['\n'])
  | .binaryExpr x op y => do
    let leftRes ← evalExpr T x
    let rightRes ← evalExpr T y
    return leftRes ++ rightRes ++ getOpAsStringBuilder op
  | .parenExpr x => evalExpr T x
  | .other => .ok []
  | .nil => .ok []

/-! ## Statements -/

def evalReturn (results : List Expr) : Eval Text :=
  match results with
  | [] => indexPanic
  | e :: _ => do
    let res ← reading (evalExpr · e)
    return res ++ "pop 0\nhalt\n".toList

/-- The address of `name`, which a name not in the table gets at once. -/
def locate (name : Text) : Eval ℕ := fun T =>
  match T.varToMem name with
  | some a => some (.ok a, T)
  | none => some (.ok T.nextMemoryLocation,
      { T.set name T.nextMemoryLocation with nextMemoryLocation := T.nextMemoryLocation + 1 })

/-- The token is not read, and of each side only the first expression. -/
def evalAssign (lhs : List Expr) (rhs : List Expr) : Eval Text :=
  match rhs with
  | [] => indexPanic
  | e :: _ => do
    let exprRes ← reading (evalExpr · e)
    match lhs with
    | [] => indexPanic
    | .ident varName :: _ =>
      let a ← locate varName
      return exprRes ++ ("pop ".toList ++ itoa a ++ ['\n'])
    | _ :: _ => throw (.errorf "invalid RHS of assignment".toList)

def evalIfElse (cond : Expr) (body els : Eval Text) : Eval Text := do
  let sbcond ← reading (evalExpr · cond)
  let sbif ← body
  let sbelse ← els
  return sbcond ++ "jeqz l2\n".toList ++ "label l1\n".toList ++ sbif ++ "label l2\n".toList ++ sbelse

/-- The condition is compiled before the body that the text has in front of it. -/
def evalFor (cond : Expr) (body : Eval Text) : Eval Text := do
  let sbcond ← reading (evalExpr · cond)
  let sbbody ← body
  return "jump l2\n".toList ++ "label l1\n".toList ++ sbbody ++ "label l2\n".toList ++ sbcond ++
    "pushi 1\nneq\njeqz l1\n".toList

/-- One round of the loop over a block.  The `err` of the round is a new variable: an error ends the loop
and goes no further. -/
def evalRound (stmt rest : Eval Text) : Eval Text := fun T =>
  match stmt T with
  | none => none
  | some (.error _, T') => some (.ok [], T')
  | some (.ok blockRes, T') =>
    match rest T' with
    | none => none
    | some (.error e, T'') => some (.error e, T'')
    | some (.ok res, T'') => some (.ok (blockRes ++ res), T'')

mutual

def evalStmt : Stmt → Eval Text
  | .returnStmt results => evalReturn results
  | .assignStmt lhs _ rhs => evalAssign lhs rhs
  | .ifStmt _ cond body els => evalIfElse cond (evalBlock body) (evalStmt els)
  | .forStmt _ cond _ body => evalFor cond (evalBlock body)
  | .blockStmt list => evalBlock list
  | .declStmt _ _ _ => pure []
  | .emptyStmt => pure []
  | .other => pure []
  | .nil => pure []

/-- The case of a block in `evalStmt`. -/
def evalBlock : List Stmt → Eval Text
  | [] => pure []
  | s :: rest => evalRound (evalStmt s) (evalBlock rest)

end

def compile (node : FuncDecl) : Eval Text := fun T =>
  evalStmt (.blockStmt node.body) ((T.set "x".toList 1).set "y".toList 2)

end Csapp.Compiler
