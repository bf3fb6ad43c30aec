import Csapp.Lib.Machine
import Csapp.Compiler.Assemble

/-!
# Compiler.StackVm — the stack machine that runs the byte code

`execute` of `vm.go` in 256 bytes of memory, which addresses of one byte never leave, and `runVM` of
`main.go`.  A cycle is one round of the loop of `execute`; `none` is its panic, a division by zero.
-/

namespace Csapp.Compiler

open Csapp.Lib

abbrev opPush : UInt8 := 0x01
abbrev opPushi : UInt8 := 0x02
abbrev opPop : UInt8 := 0x03
abbrev opAdd : UInt8 := 0x10
abbrev opSub : UInt8 := 0x11
abbrev opMul : UInt8 := 0x12
abbrev opDiv : UInt8 := 0x13
abbrev opEq : UInt8 := 0x14
abbrev opLt : UInt8 := 0x15
abbrev opGt : UInt8 := 0x16
abbrev opNeq : UInt8 := 0x17
abbrev opLeq : UInt8 := 0x18
abbrev opGeq : UInt8 := 0x19
abbrev opJump : UInt8 := 0x20
abbrev opJeqz : UInt8 := 0x21
abbrev opHalt : UInt8 := 0xff

abbrev Memory := UInt8 → UInt8

def Memory.set (m : Memory) (a v : UInt8) : Memory := fun b => if b = a then v else m b

inductive VmError
  | invalidBinaryOperation (op : UInt8)
  | invalidOpcode (op : UInt8)
  deriving DecidableEq

/-- The registers `r1` and `r2` are written before every use, so they are not kept from one cycle to the
next.  `err` is what `execute` returns where it has halted. -/
structure State where
  pc : UInt8
  sp : UInt8
  memory : Memory
  err : Option VmError

def bit (b : Bool) : UInt8 := if b then 1 else 0

def applyOp (op r1 r2 : UInt8) : Option (Except VmError UInt8) :=
  if op = opAdd then some (.ok (r1 + r2))
  else if op = opSub then some (.ok (r1 - r2))
  else if op = opMul then some (.ok (r1 * r2))
  else if op = opDiv then if r2 = 0 then none else some (.ok (r1 / r2))
  else if op = opEq then some (.ok (bit (r1 == r2)))
  else if op = opLt then some (.ok (bit (r1 < r2)))
  else if op = opGt then some (.ok (bit (r1 > r2)))
  else if op = opNeq then some (.ok (bit (r1 != r2)))
  else if op = opLeq then some (.ok (bit (r1 ≤ r2)))
  else if op = opGeq then some (.ok (bit (r1 ≥ r2)))
  else some (.error (.invalidBinaryOperation op))

/-- The opcodes of the cases that fall through to `Geq`. -/
def binaryOps : List UInt8 :=
  [opAdd, opSub, opMul, opDiv, opEq, opLt, opGt, opNeq, opLeq, opGeq]

def push (s : State) (v : UInt8) : State :=
  { s with memory := s.memory.set s.sp v, sp := s.sp - 1, pc := s.pc + 2 }

def binary (s : State) (op : UInt8) : Option (Outcome State) :=
  let r2 := s.memory (s.sp + 1)
  let sp := s.sp + 2
  let r1 := s.memory sp
  match applyOp op r1 r2 with
  | none => none
  | some (.error e) => some (.halted { s with sp := sp, memory := s.memory.set sp 0, err := some e })
  | some (.ok v) =>
    some (.running { s with sp := sp - 1, memory := s.memory.set sp v, pc := s.pc + 1 })

def cycle (s : State) : Option (Outcome State) :=
  let op := s.memory s.pc
  let arg := s.memory (s.pc + 1)
  if op = opHalt then some (.halted s)
  else if op = opPush then some (.running (push s (s.memory arg)))
  else if op = opPushi then some (.running (push s arg))
  else if op = opPop then
    some (.running { s with
      sp := s.sp + 1, memory := s.memory.set arg (s.memory (s.sp + 1)), pc := s.pc + 2 })
  else if op ∈ binaryOps then binary s op
  else if op = opJump then some (.running { s with pc := arg })
  else if op = opJeqz then
    some (.running { s with
      sp := s.sp + 1, pc := if s.memory (s.sp + 1) = 0 then arg else s.pc + 2 })
  else some (.halted { s with err := some (.invalidOpcode op) })

/-- What `n` cycles of `execute` come to. -/
def execute (n : ℕ) (memory : Memory) : Option (Outcome State) :=
  cycles cycle n ⟨0x08, 0xff, memory, none⟩

/-- The layout of `runVM`: parameters at 1 and 2, the code from `instructionStart` on. -/
def loadMemory (bytecode : List UInt8) (x y : UInt8) : Memory := fun a =>
  if a = 1 then x
  else if a = 2 then y
  else if a < instructionStart then 0
  else bytecode.getD (a.toNat - instructionStart.toNat) 0

/-- How a run ends, or that it has not ended within its cycles. -/
inductive Exit
  | value (v : UInt8)
  | error (e : VmError)
  | panic
  | unfinished
  deriving DecidableEq

def runVM (n : ℕ) (bytecode : List UInt8) (x y : UInt8) : Exit :=
  match execute n (loadMemory bytecode x y) with
  | none => .panic
  | some (.running _) => .unfinished
  | some (.halted s) =>
    match s.err with
    | some e => .error e
    | none => .value (s.memory 0)

end Csapp.Compiler
