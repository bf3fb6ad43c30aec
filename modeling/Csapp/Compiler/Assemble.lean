import Csapp.Compiler.Compile

/-!
# Compiler.Assemble — from assembly text to byte code

`assemble` of `assemble.go`: two passes over the lines, the first for the addresses of the labels, the
second for the bytes.  `none` is a panic (a missing operand, or an operand that is no number); an unknown
operation is the error `Invalid operation: …`, with the operation.
-/

namespace Csapp.Compiler

open Csapp.Lib

def instructionStart : UInt8 := 0x08

def instructionSizes : List (Text × UInt8) :=
  [("push".toList, 2), ("pushi".toList, 2), ("pop".toList, 2),
   ("add".toList, 1), ("sub".toList, 1), ("mul".toList, 1), ("div".toList, 1),
   ("eq".toList, 1), ("lt".toList, 1), ("gt".toList, 1), ("neq".toList, 1), ("leq".toList, 1),
   ("geq".toList, 1), ("jump".toList, 2), ("jeqz".toList, 2), ("halt".toList, 1)]

def instructionSize (op : Text) : Option UInt8 := instructionSizes.lookup op

structure AsmError where
  op : Text
  deriving DecidableEq

/-- `Invalid operation: %v`. -/
def AsmError.text (e : AsmError) : Text := "Invalid operation: ".toList ++ e.op

def mem (s : Text) : Option UInt8 :=
  match atoi s with
  | .error _ => none
  | .ok i => some (toByte i)

def imm (s : Text) : Option UInt8 := mem s

/-- The map of the labels; a label that is not there has address 0. -/
abbrev Labels := Text → UInt8

def Labels.set (labels : Labels) (l : Text) (addr : UInt8) : Labels :=
  fun k => if k = l then addr else labels k

/-- `strings.Split(strings.TrimSpace(line), " ")`. -/
def lineParts (line : Text) : List Text := (trimSpace line).splitOn ' '

def firstPass : List Text → Labels → UInt8 → Option (Except AsmError Labels)
  | [], labels, _ => some (.ok labels)
  | line :: rest, labels, addr =>
    let parts := lineParts line
    let op := parts.headD []
    if op = "label".toList then
      match parts[1]? with
      | none => none
      | some l => firstPass rest (labels.set l addr) addr
    else
      match instructionSize op with
      | some size => firstPass rest labels (addr + size)
      | none => some (.error ⟨op⟩)

/-- The bytes of one line. -/
def encode (labels : Labels) (parts : List Text) : Option (Except AsmError (List UInt8)) :=
  let op := parts.headD []
  if op = "push".toList then parts[1]? >>= mem >>= fun b => some (.ok [0x01, b])
  else if op = "pushi".toList then parts[1]? >>= imm >>= fun b => some (.ok [0x02, b])
  else if op = "pop".toList then parts[1]? >>= mem >>= fun b => some (.ok [0x03, b])
  else if op = "add".toList then some (.ok [0x10])
  else if op = "sub".toList then some (.ok [0x11])
  else if op = "mul".toList then some (.ok [0x12])
  else if op = "div".toList then some (.ok [0x13])
  else if op = "eq".toList then some (.ok [0x14])
  else if op = "lt".toList then some (.ok [0x15])
  else if op = "gt".toList then some (.ok [0x16])
  else if op = "neq".toList then some (.ok [0x17])
  else if op = "leq".toList then some (.ok [0x18])
  else if op = "geq".toList then some (.ok [0x19])
  else if op = "jump".toList then parts[1]? >>= fun l => some (.ok [0x20, labels l])
  else if op = "jeqz".toList then parts[1]? >>= fun l => some (.ok [0x21, labels l])
  else if op = "halt".toList then some (.ok [0xff])
  else if op = "label".toList then some (.ok [])
  else some (.error ⟨op⟩)

def secondPass (labels : Labels) : List Text → List UInt8 → Option (Except AsmError (List UInt8))
  | [], bc => some (.ok bc)
  | line :: rest, bc =>
    match encode labels (lineParts line) with
    | none => none
    | some (.error e) => some (.error e)
    | some (.ok bytes) => secondPass labels rest (bc ++ bytes)

def assemble (asm : Text) : Option (Except AsmError (List UInt8)) :=
  let lines := (trimSpace asm).splitOn '\n'
  match firstPass lines (fun _ => 0) instructionStart with
  | none => none
  | some (.error e) => some (.error e)
  | some (.ok labels) => secondPass labels lines []

end Csapp.Compiler
