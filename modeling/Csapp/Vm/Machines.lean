import Csapp.Lib.Machine
import Mathlib.Data.Int.Notation

/-!
# Vm.Machines — the virtual machine of `bradvm` and the reference solution

Both run a program in 256 bytes of memory with two registers.  `bradvm` decodes an instruction into a
record and keeps its program counter as an `int`; the reference packs the operands into 16 bits and keeps
the program counter in register 0.  A cycle is one round of the loop of `Run` and of `compute`; `none` is
a panic (an index out of range, or the error of `decode`) or `log.Fatalf`.
-/

namespace Csapp.Vm

open Csapp.Lib

/-! ## Opcodes, memory and registers -/

abbrev opLoad : UInt8 := 0x01
abbrev opStore : UInt8 := 0x02
abbrev opAdd : UInt8 := 0x03
abbrev opSub : UInt8 := 0x04
abbrev opAddi : UInt8 := 0x05
abbrev opSubi : UInt8 := 0x06
abbrev opJump : UInt8 := 0x07
abbrev opBeqz : UInt8 := 0x08
abbrev opHalt : UInt8 := 0xff

/-- `a[i]` for an index of type `int`. -/
def index (a : List UInt8) (i : ℤ) : Option UInt8 :=
  if 0 ≤ i then a[i.toNat]? else none

/-- `a[i]` for an index of type `byte`. -/
def get (a : List UInt8) (i : UInt8) : Option UInt8 := a[i.toNat]?

/-- `a[i] = v`. -/
def put (a : List UInt8) (i v : UInt8) : Option (List UInt8) :=
  if i.toNat < a.length then some (a.set i.toNat v) else none

/-! ## bradvm -/

namespace Bradvm

structure Instruction where
  opcode : UInt8
  destReg : UInt8
  srcReg : UInt8
  addr : UInt8
  imm : UInt8
  length : ℤ

/-- The error `unknown opcode: 0x%02x`. -/
inductive VmError
  | unknownOpcode (opcode : UInt8)

def decode (memory : List UInt8) (pc : ℤ) : Option (Except VmError Instruction) := do
  let opcode ← index memory pc
  if opcode = opBeqz then
    return .ok ⟨opcode, ← index memory (pc + 1), 0, 0, ← index memory (pc + 2), 3⟩
  else if opcode = opJump then
    return .ok ⟨opcode, 0, 0, ← index memory (pc + 1), 0, 2⟩
  else if opcode = opAddi then
    return .ok ⟨opcode, ← index memory (pc + 1), 0, 0, ← index memory (pc + 2), 3⟩
  else if opcode = opSubi then
    return .ok ⟨opcode, ← index memory (pc + 1), 0, 0, ← index memory (pc + 2), 3⟩
  else if opcode = opAdd then
    return .ok ⟨opcode, ← index memory (pc + 1), ← index memory (pc + 2), 0, 0, 3⟩
  else if opcode = opSub then
    return .ok ⟨opcode, ← index memory (pc + 1), ← index memory (pc + 2), 0, 0, 3⟩
  else if opcode = opLoad then
    return .ok ⟨opcode, ← index memory (pc + 1), 0, ← index memory (pc + 2), 0, 3⟩
  else if opcode = opStore then
    return .ok ⟨opcode, 0, ← index memory (pc + 1), ← index memory (pc + 2), 0, 3⟩
  else if opcode = opHalt then
    return .ok ⟨opcode, 0, 0, 0, 0, 1⟩
  else
    return .error (.unknownOpcode opcode)

/-- The CPU and the memory that it works on. -/
structure State where
  pc : ℤ
  registers : List UInt8
  memory : List UInt8
  deriving DecidableEq

/-- `NewCPU`. -/
def newCPU (memory : List UInt8) : State := ⟨0x08, [0, 0, 0], memory⟩

/-- `FlowDirective`, whose zero value is `FlowNext`. -/
inductive Flow
  | next
  | jump (target : ℤ)
  | halt

/-- `int(int8(b))`. -/
def int8 (b : UInt8) : ℤ := if b.toNat < 128 then b.toNat else b.toNat - 256

/-- `Registers[r] = v`. -/
def State.setReg (s : State) (r v : UInt8) : Option State := do
  return { s with registers := ← put s.registers r v }

/-- Also returns the error, which `Run` does not look at. -/
def execute (s : State) (inst : Instruction) : Option (Flow × Option VmError × State) := do
  if inst.opcode = opBeqz then
    let r ← get s.registers inst.destReg
    if r ≠ 0 then return (.next, none, s)
    else return (.jump (s.pc + inst.length + int8 inst.imm), none, s)
  else if inst.opcode = opJump then
    return (.jump inst.addr.toNat, none, s)
  else if inst.opcode = opAddi then
    return (.next, none, ← s.setReg inst.destReg ((← get s.registers inst.destReg) + inst.imm))
  else if inst.opcode = opSubi then
    return (.next, none, ← s.setReg inst.destReg ((← get s.registers inst.destReg) - inst.imm))
  else if inst.opcode = opAdd then
    return (.next, none, ← s.setReg inst.destReg
      ((← get s.registers inst.destReg) + (← get s.registers inst.srcReg)))
  else if inst.opcode = opSub then
    return (.next, none, ← s.setReg inst.destReg
      ((← get s.registers inst.destReg) - (← get s.registers inst.srcReg)))
  else if inst.opcode = opLoad then
    return (.next, none, ← s.setReg inst.destReg (← get s.memory inst.addr))
  else if inst.opcode = opStore then
    return (.next, none, { s with memory := ← put s.memory inst.addr (← get s.registers inst.srcReg) })
  else if inst.opcode = opHalt then
    return (.halt, none, s)
  else
    return (.next, some (.unknownOpcode inst.opcode), s)

/-- One round of the loop of `Run`. -/
def cycle (s : State) : Option (Outcome State) := do
  match ← decode s.memory s.pc with
  | .error _ => none
  | .ok inst =>
    let (flow, _, s) ← execute s inst
    match flow with
    | .next => return .running { s with pc := s.pc + inst.length }
    | .jump target => return .running { s with pc := target }
    | .halt => return .halted s

end Bradvm

/-! ## The reference solution -/

namespace Reference

/-- The index of the program counter among the registers. -/
abbrev pc : UInt8 := 0

structure State where
  registers : List UInt8
  memory : List UInt8
  deriving DecidableEq

/-- The loop of `decodeOperands`, at `offset`. -/
def decodeLoop (memory : List UInt8) (base maxOffset : UInt8) : ℕ → UInt16 → Option UInt16
  | 0, operands => some operands
  | offset + 1, operands => do
    let b ← get memory (base + UInt8.ofNat (offset + 1))
    let shift := 8 * (maxOffset - UInt8.ofNat (offset + 1))
    decodeLoop memory base maxOffset offset (operands ||| (b.toUInt16 <<< shift.toUInt16))

def decodeOperands (memory registers : List UInt8) (maxOffset : UInt8) : Option UInt16 := do
  decodeLoop memory (← get registers pc) maxOffset maxOffset.toNat 0

def State.setReg (s : State) (r v : UInt8) : Option State := do
  return { s with registers := ← put s.registers r v }

def loadProcedure (operands : UInt16) (s : State) : Option State := do
  let address := (0x00 ||| operands).toUInt8
  let operands := operands >>> 8
  let register := (0x00 ||| operands).toUInt8
  s.setReg register (← get s.memory address)

def storeProcedure (operands : UInt16) (s : State) : Option State := do
  let a1 := (0x00 ||| operands).toUInt8
  let operands := operands >>> 8
  let r1 := (0x00 ||| operands).toUInt8
  return { s with memory := ← put s.memory a1 (← get s.registers r1) }

def addProcedure (operands : UInt16) (s : State) : Option State := do
  let r2 := (0x00 ||| operands).toUInt8
  let operands := operands >>> 8
  let r1 := (0x00 ||| operands).toUInt8
  s.setReg r1 ((← get s.registers r1) + (← get s.registers r2))

def subProcedure (operands : UInt16) (s : State) : Option State := do
  let r2 := (0x00 ||| operands).toUInt8
  let operands := operands >>> 8
  let r1 := (0x00 ||| operands).toUInt8
  s.setReg r1 ((← get s.registers r1) - (← get s.registers r2))

def addiProcedure (operands : UInt16) (s : State) : Option State := do
  let op1 := (0x00 ||| operands).toUInt8
  let operands := operands >>> 8
  let r1 := (0x00 ||| operands).toUInt8
  s.setReg r1 ((← get s.registers r1) + op1)

def subiProcedure (operands : UInt16) (s : State) : Option State := do
  let op1 := (0x00 ||| operands).toUInt8
  let operands := operands >>> 8
  let r1 := (0x00 ||| operands).toUInt8
  s.setReg r1 ((← get s.registers r1) - op1)

def jumpProcedure (operands : UInt16) (s : State) : Option State :=
  s.setReg pc (0x00 ||| operands).toUInt8

def beqzProcedure (operands : UInt16) (s : State) : Option State := do
  let offset := (0x00 ||| operands).toUInt8
  let operands := operands >>> 8
  let r1 := (0x00 ||| operands).toUInt8
  if (← get s.registers r1) = 0x00 then s.setReg pc ((← get s.registers pc) + offset) else return s

/-- The `switch` that decodes: `maxOffset` and the operands. -/
def decode (s : State) (opcode : UInt8) : Option (UInt8 × UInt16) := do
  if opcode = opHalt then return (0x00, 0)
  else if opcode = opJump then return (0x01, ← decodeOperands s.memory s.registers 0x01)
  else return (0x02, ← decodeOperands s.memory s.registers 0x02)

/-- The `switch` that executes. -/
def execute (s : State) (opcode : UInt8) (operands : UInt16) : Option State :=
  if opcode = opLoad then loadProcedure operands s
  else if opcode = opStore then storeProcedure operands s
  else if opcode = opAdd then addProcedure operands s
  else if opcode = opSub then subProcedure operands s
  else if opcode = opAddi then addiProcedure operands s
  else if opcode = opSubi then subiProcedure operands s
  else if opcode = opJump then jumpProcedure operands s
  else if opcode = opBeqz then beqzProcedure operands s
  else if opcode = opHalt then some s
  else none

/-- The end of a round: the program counter moves on, except after a jump. -/
def advance (s : State) (opcode maxOffset : UInt8) : Option State := do
  if opcode ≠ opJump then s.setReg pc ((← get s.registers pc) + (maxOffset + 1)) else return s

def start (memory : List UInt8) : State := ⟨[8, 0, 0], memory⟩

/-- One round of the loop of `compute`. -/
def cycle (s : State) : Option (Outcome State) := do
  let opcode ← get s.memory (← get s.registers pc)
  let (maxOffset, operands) ← decode s opcode
  let s ← execute s opcode operands
  let s ← advance s opcode maxOffset
  if opcode = opHalt then return .halted s else return .running s

end Reference

end Csapp.Vm
