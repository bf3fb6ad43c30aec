import Csapp.Compiler.Gen

/-!
# Compiler.Layout — the bytes that the assembler makes of the instructions

Every instruction of `Gen` is a line that the assembler reads back (`Instr.lineParts_line`), so that
`assemble` undoes `render` (`assemble_render`): the bytes of the instructions one after the other, with each
label at the address of what follows it.
-/

namespace Csapp.Compiler

open Csapp.Lib

/-! ## Lines -/

/-- The parts of the line of an instruction. -/
def Instr.words : Instr → List Text
  | .push a => ["push".toList, itoa a]
  | .pushi b => ["pushi".toList, itoa b.toNat]
  | .pop a => ["pop".toList, itoa a]
  | .binary op => [op.text]
  | .neq => ["neq".toList]
  | .jump l => ["jump".toList, l.text]
  | .jeqz l => ["jeqz".toList, l.text]
  | .label l => ["label".toList, l.text]
  | .halt => ["halt".toList]

theorem Label.isWord (l : Label) : IsWord l.text := by
  cases l <;> decide

theorem BinOp.isWord (op : BinOp) : IsWord op.text := by
  cases op <;> decide

theorem Instr.isLine (i : Instr) : IsLine i.line := by
  cases i with
  | push a => exact isLine_two (w := "push".toList) (by decide) (isWord_itoa a)
  | pushi b => exact isLine_two (w := "pushi".toList) (by decide) (isWord_itoa b.toNat)
  | pop a => exact isLine_two (w := "pop".toList) (by decide) (isWord_itoa a)
  | binary op => exact op.isWord.isLine
  | neq => exact IsWord.isLine (by decide)
  | jump l => exact isLine_two (w := "jump".toList) (by decide) l.isWord
  | jeqz l => exact isLine_two (w := "jeqz".toList) (by decide) l.isWord
  | label l => exact isLine_two (w := "label".toList) (by decide) l.isWord
  | halt => exact IsWord.isLine (by decide)

theorem Instr.lineParts_line (i : Instr) : lineParts i.line = i.words := by
  cases i with
  | push a => exact splitOn_two (w := "push".toList) (by decide) (isWord_itoa a)
  | pushi b => exact splitOn_two (w := "pushi".toList) (by decide) (isWord_itoa b.toNat)
  | pop a => exact splitOn_two (w := "pop".toList) (by decide) (isWord_itoa a)
  | binary op => exact op.isWord.splitOn
  | neq => exact IsWord.splitOn (by decide)
  | jump l => exact splitOn_two (w := "jump".toList) (by decide) l.isWord
  | jeqz l => exact splitOn_two (w := "jeqz".toList) (by decide) l.isWord
  | label l => exact splitOn_two (w := "label".toList) (by decide) l.isWord
  | halt => exact IsWord.splitOn (by decide)

/-! ## Bytes -/

def BinOp.opcode : BinOp → UInt8
  | .add => opAdd
  | .sub => opSub
  | .mul => opMul
  | .quo => opDiv
  | .eql => opEq
  | .lss => opLt
  | .gtr => opGt

def Instr.bytes (labels : Label → UInt8) : Instr → List UInt8
  | .push a => [opPush, UInt8.ofNat a]
  | .pushi b => [opPushi, b]
  | .pop a => [opPop, UInt8.ofNat a]
  | .binary op => [op.opcode]
  | .neq => [opNeq]
  | .jump l => [opJump, labels l]
  | .jeqz l => [opJeqz, labels l]
  | .label _ => []
  | .halt => [opHalt]

def bytes (labels : Label → UInt8) (code : List Instr) : List UInt8 := code.flatMap (Instr.bytes labels)

/-- The size of the code, which does not depend on where the labels are. -/
def size (code : List Instr) : ℕ := (bytes (fun _ => 0) code).length

theorem bytes_append (labels : Label → UInt8) (c c' : List Instr) :
    bytes labels (c ++ c') = bytes labels c ++ bytes labels c' := List.flatMap_append

@[simp] theorem size_append (c c' : List Instr) : size (c ++ c') = size c + size c' := by
  simp [size, bytes_append]

theorem length_bytes (labels : Label → UInt8) (code : List Instr) : (bytes labels code).length = size code := by
  induction code with
  | nil => rfl
  | cons i code ih =>
    have hi : (i.bytes labels).length = (i.bytes fun _ => 0).length := by cases i <;> rfl
    simpa [bytes, size, hi] using ih

/-! ## Labels -/

/-- The labels of the code from the address `a` on, over those of `labels`. -/
def resolve : List Instr → Labels → UInt8 → Labels
  | [], labels, _ => labels
  | .label l :: code, labels, a => resolve code (labels.set l.text a) a
  | i :: code, labels, a => resolve code labels (a + UInt8.ofNat (size [i]))

/-- The addresses of the labels in the whole code. -/
def labelsOf (code : List Instr) (l : Label) : UInt8 :=
  resolve code (fun _ => 0) instructionStart l.text

theorem resolve_append (c c' : List Instr) (labels : Labels) (a : UInt8) :
    resolve (c ++ c') labels a = resolve c' (resolve c labels a) (a + UInt8.ofNat (size c)) := by
  induction c generalizing labels a with
  | nil => simp [resolve, size, bytes]
  | cons i c ih =>
    have hs : a + UInt8.ofNat (size (i :: c)) = a + UInt8.ofNat (size [i]) + UInt8.ofNat (size c) := by
      rw [← List.singleton_append, size_append, UInt8.ofNat_add, UInt8.add_assoc]
    rw [hs]
    cases i with
    | label l =>
      have h0 : a + UInt8.ofNat (size [Instr.label l]) = a := by simp [size, bytes, Instr.bytes]
      rw [h0]
      exact ih (labels.set l.text a) a
    | _ => exact ih labels _

/-- The label `l` is not defined in the code. -/
def NoLabel (l : Label) (code : List Instr) : Prop := ∀ i ∈ code, i ≠ .label l

theorem NoLabel.append {l : Label} {c c' : List Instr} (h : NoLabel l c) (h' : NoLabel l c') :
    NoLabel l (c ++ c') := by
  intro i hi
  rcases List.mem_append.mp hi with hi | hi
  · exact h i hi
  · exact h' i hi

theorem Label.text_inj {l l' : Label} (h : l.text = l'.text) : l = l' := by
  cases l <;> cases l' <;> first | rfl | exact absurd h (by decide)

theorem resolve_noLabel {l : Label} {code : List Instr} (h : NoLabel l code) (labels : Labels) (a : UInt8) :
    resolve code labels a l.text = labels l.text := by
  induction code generalizing labels a with
  | nil => rfl
  | cons i code ih =>
    have hrest := ih fun k hk => h k (List.mem_cons_of_mem i hk)
    cases i with
    | label l' =>
      have hne : l.text ≠ l'.text := fun heq =>
        h _ List.mem_cons_self (congrArg Instr.label (Label.text_inj heq).symm)
      exact (hrest _ _).trans (if_neg hne)
    | _ => exact hrest _ _

/-- The address of the byte `k` of the code. -/
def codeAddr (k : ℕ) : UInt8 := instructionStart + UInt8.ofNat k

/-- **A label is the address of what follows it.** -/
theorem labelsOf_append {l : Label} {c c' : List Instr} (h : NoLabel l c') :
    labelsOf (c ++ .label l :: c') l = codeAddr (size c) := by
  rw [labelsOf, resolve_append, resolve, resolve_noLabel h]
  exact if_pos rfl

/-! ## The assembler -/

/-- The operand of an instruction is in the range of `int`. -/
def Instr.InRange : Instr → Prop
  | .push a => a < 2 ^ 63
  | .pop a => a < 2 ^ 63
  | _ => True

theorem mem_itoa {n : ℕ} (h : n < 2 ^ 63) : mem (itoa n) = some (UInt8.ofNat n) := by
  rw [mem, atoi_itoa h]
  exact congrArg some (toByte_natCast n)

theorem encode_words (labels : Labels) {i : Instr} (h : i.InRange) :
    encode labels i.words = some (.ok (i.bytes fun l => labels l.text)) := by
  cases i with
  | push a =>
    show (mem (itoa a) >>= fun b => some (Except.ok [opPush, b])) = _
    rw [mem_itoa h]
    rfl
  | pushi b =>
    have hb : mem (itoa b.toNat) = some b := by
      rw [mem_itoa (by have := b.toNat_lt; omega), UInt8.ofNat_toNat]
    show (mem (itoa b.toNat) >>= fun b => some (Except.ok [opPushi, b])) = _
    rw [hb]
    rfl
  | pop a =>
    show (mem (itoa a) >>= fun b => some (Except.ok [opPop, b])) = _
    rw [mem_itoa h]
    rfl
  | binary op => cases op <;> rfl
  | neq => rfl
  | jump l => rfl
  | jeqz l => rfl
  | label l => rfl
  | halt => rfl

theorem firstPass_code (code : List Instr) (labels : Labels) (a : UInt8) :
    firstPass (code.map Instr.line) labels a = some (.ok (resolve code labels a)) := by
  induction code generalizing labels a with
  | nil => rfl
  | cons i code ih =>
    rw [List.map_cons, firstPass, i.lineParts_line]
    cases i with
    | label l => exact ih (labels.set l.text a) a
    | binary op => cases op <;> exact ih labels _
    | _ => exact ih labels _

theorem secondPass_code (labels : Labels) {code : List Instr} (h : ∀ i ∈ code, i.InRange)
    (bc : List UInt8) : secondPass labels (code.map Instr.line) bc =
      some (.ok (bc ++ bytes (fun l => labels l.text) code)) := by
  induction code generalizing bc with
  | nil => simp [secondPass, bytes]
  | cons i code ih =>
    rw [List.map_cons, secondPass, i.lineParts_line, encode_words labels (h i List.mem_cons_self)]
    simp only
    rw [ih fun k hk => h k (List.mem_cons_of_mem i hk)]
    simp [bytes]

/-- **The assembler undoes `render`.** -/
theorem assemble_render {code : List Instr} (hne : code ≠ []) (h : ∀ i ∈ code, i.InRange) :
    assemble (render code) = some (.ok (bytes (labelsOf code) code)) := by
  have hlines : (trimSpace (render code)).splitOn '\n' = code.map Instr.line := by
    refine splitOn_trimSpace_unlines (by simpa using hne) fun l hl => ?_
    obtain ⟨i, -, rfl⟩ := List.mem_map.mp hl
    exact i.isLine
  simp only [assemble, hlines, firstPass_code]
  exact secondPass_code (resolve code (fun _ => 0) instructionStart) h []

end Csapp.Compiler
