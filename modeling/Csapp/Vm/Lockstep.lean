import Csapp.Vm.Machines
import Mathlib.Algebra.Ring.Nat

/-!
# Vm.Lockstep — the two machines agree

`Agree` relates the states: the same memory, the same registers 1 and 2, and the program counter of
`bradvm` is the byte in register 0 of the reference.  A proper instruction (`Proper`) takes agreeing
states to agreeing states or halts both machines (`Agree.cycle`), whatever it stores; `lockstep` is the
statement about runs.
-/

namespace Csapp.Vm

open Csapp.Lib

/-! ## Proper instructions -/

/-- The registers that an instruction names. -/
def Bradvm.Instruction.registers (inst : Bradvm.Instruction) : List UInt8 :=
  if inst.opcode = opAdd ∨ inst.opcode = opSub then [inst.destReg, inst.srcReg]
  else if inst.opcode = opStore then [inst.srcReg]
  else if inst.opcode = opJump ∨ inst.opcode = opHalt then []
  else [inst.destReg]

/-- The instruction at the program counter has one of the nine opcodes and all its bytes in memory, it
names registers 1 and 2 only, and if it does not halt, then its successor is in memory. -/
def Proper (s : Bradvm.State) : Prop :=
  ∃ inst, Bradvm.decode s.memory s.pc = some (.ok inst) ∧
    (∀ r ∈ inst.registers, r = 1 ∨ r = 2) ∧
    ∀ s', Bradvm.cycle s = some (.running s') → 0 ≤ s'.pc ∧ s'.pc ≤ 255

/-- The memories, the registers 1 and 2 and the program counters are equal. -/
def Agree (s : Bradvm.State) (t : Reference.State) : Prop :=
  s.memory.length = 256 ∧ t.memory = s.memory ∧
    ∃ p q r1 r2 : UInt8, s.pc = p.toNat ∧ s.registers = [q, r1, r2] ∧ t.registers = [p, r1, r2]

/-! ## Operands -/

/-- The two operands as the reference packs them. -/
def pack (a b : UInt8) : UInt16 := (0 : UInt16) ||| b.toUInt16 <<< 0 ||| a.toUInt16 <<< 8

theorem pack_low (a b : UInt8) : ((0x00 : UInt16) ||| pack a b).toUInt8 = b := by
  apply UInt8.eq_of_toBitVec_eq
  ext i hi
  simp [pack]

theorem pack_high (a b : UInt8) : ((0x00 : UInt16) ||| pack a b >>> 8).toUInt8 = a := by
  apply UInt8.eq_of_toBitVec_eq
  ext i hi
  have h16 : 8 + i < 16 := by omega
  simp [pack, h16, BitVec.getLsbD_eq_getElem hi]

section

variable {memory : List UInt8} {p a b r1 r2 : UInt8}

/-- Both machines read the same byte behind the opcode. -/
theorem get_of_index (hm : memory.length = 256) {k : UInt8} (h : index memory (p.toNat + k.toNat) = some a) :
    get memory (p + k) = some a := by
  have h1 : memory[p.toNat + k.toNat]? = some a := by
    rw [index, if_pos (by omega)] at h
    exact h
  have h2 := (List.getElem?_eq_some_iff.mp h1).1
  rw [get, UInt8.toNat_add, Nat.mod_eq_of_lt (by omega)]
  exact h1

theorem decodeOperands_two (hm : memory.length = 256) (h1 : index memory (p.toNat + 1) = some a)
    (h2 : index memory (p.toNat + 2) = some b) :
    Reference.decodeOperands memory [p, r1, r2] 0x02 = some (pack a b) := by
  have h1' : get memory (p + 1) = some a := get_of_index hm (k := 1) h1
  have h2' : get memory (p + 2) = some b := get_of_index hm (k := 2) h2
  show (do
    let x ← get memory (p + 2)
    let y ← get memory (p + 1)
    some ((0 : UInt16) ||| x.toUInt16 <<< 0 ||| y.toUInt16 <<< 8)) = _
  rw [h1', h2']
  rfl

theorem decodeOperands_one (hm : memory.length = 256) (h1 : index memory (p.toNat + 1) = some a) :
    Reference.decodeOperands memory [p, r1, r2] 0x01 = some ((0 : UInt16) ||| a.toUInt16 <<< 0) := by
  have h1' : get memory (p + 1) = some a := get_of_index hm (k := 1) h1
  show (do
    let x ← get memory (p + 1)
    some ((0 : UInt16) ||| x.toUInt16 <<< 0)) = _
  rw [h1']
  rfl

end

/-! ## One cycle -/

/-- The forms of an instruction, with the two operands that `decode` reads behind the opcode. -/
inductive Form (a b : UInt8) : Bradvm.Instruction → Prop
  | beqz : Form a b ⟨opBeqz, a, 0, 0, b, 3⟩
  | addi : Form a b ⟨opAddi, a, 0, 0, b, 3⟩
  | subi : Form a b ⟨opSubi, a, 0, 0, b, 3⟩
  | add : Form a b ⟨opAdd, a, b, 0, 0, 3⟩
  | sub : Form a b ⟨opSub, a, b, 0, 0, 3⟩
  | load : Form a b ⟨opLoad, a, 0, b, 0, 3⟩
  | store : Form a b ⟨opStore, 0, a, b, 0, 3⟩

theorem decode_cases {memory : List UInt8} {pc : ℤ} {inst : Bradvm.Instruction}
    (h : Bradvm.decode memory pc = some (.ok inst)) : index memory pc = some inst.opcode ∧
      ((∃ a b, index memory (pc + 1) = some a ∧ index memory (pc + 2) = some b ∧ Form a b inst) ∨
        (∃ a, index memory (pc + 1) = some a ∧ inst = ⟨opJump, 0, 0, a, 0, 2⟩) ∨
        inst = ⟨opHalt, 0, 0, 0, 0, 1⟩) := by
  simp only [Bradvm.decode, Option.bind_eq_bind, Option.bind_eq_some_iff] at h
  obtain ⟨opcode, h0, h⟩ := h
  split_ifs at h with h1 h2 h3 h4 h5 h6 h7 h8 h9
  all_goals simp only [Option.bind_eq_some_iff, Option.pure_def, Option.some.injEq, Except.ok.injEq,
    reduceCtorEq] at h
  all_goals subst opcode
  · obtain ⟨a, ha, b, hb, rfl⟩ := h
    exact ⟨h0, Or.inl ⟨a, b, ha, hb, .beqz⟩⟩
  · obtain ⟨a, ha, rfl⟩ := h
    exact ⟨h0, Or.inr (Or.inl ⟨a, ha, rfl⟩)⟩
  · obtain ⟨a, ha, b, hb, rfl⟩ := h
    exact ⟨h0, Or.inl ⟨a, b, ha, hb, .addi⟩⟩
  · obtain ⟨a, ha, b, hb, rfl⟩ := h
    exact ⟨h0, Or.inl ⟨a, b, ha, hb, .subi⟩⟩
  · obtain ⟨a, ha, b, hb, rfl⟩ := h
    exact ⟨h0, Or.inl ⟨a, b, ha, hb, .add⟩⟩
  · obtain ⟨a, ha, b, hb, rfl⟩ := h
    exact ⟨h0, Or.inl ⟨a, b, ha, hb, .sub⟩⟩
  · obtain ⟨a, ha, b, hb, rfl⟩ := h
    exact ⟨h0, Or.inl ⟨a, b, ha, hb, .load⟩⟩
  · obtain ⟨a, ha, b, hb, rfl⟩ := h
    exact ⟨h0, Or.inl ⟨a, b, ha, hb, .store⟩⟩
  · subst h
    exact ⟨h0, Or.inr (Or.inr rfl)⟩

section Cycle

variable {memory : List UInt8} {p q r1 r2 a b : UInt8} {inst : Bradvm.Instruction}

/-- The program counters after an instruction that does not jump. -/
theorem agree_next (hm : memory.length = 256) (h : (p.toNat : ℤ) + 3 ≤ 255) :
    Agree ⟨p.toNat + 3, [q, r1, r2], memory⟩ ⟨[p + 3, r1, r2], memory⟩ := by
  have h3 : (p + 3).toNat = p.toNat + 3 := by
    rw [UInt8.toNat_add]
    exact Nat.mod_eq_of_lt (show p.toNat + 3 < 256 by omega)
  exact ⟨hm, rfl, p + 3, q, r1, r2, by rw [h3]; rfl, rfl, rfl⟩

/-- The program counters after a branch that is taken: the reference adds the offset modulo 256, before
it adds the length. -/
theorem agree_branch (hm : memory.length = 256) (h : 0 ≤ (p.toNat : ℤ) + 3 + Bradvm.int8 b ∧
    (p.toNat : ℤ) + 3 + Bradvm.int8 b ≤ 255) :
    Agree ⟨p.toNat + 3 + Bradvm.int8 b, [q, r1, r2], memory⟩ ⟨[p + b + 3, r1, r2], memory⟩ := by
  refine ⟨hm, rfl, p + b + 3, q, r1, r2, ?_, rfl, rfl⟩
  have hb := b.toNat_lt
  have h3 : (p + b + 3).toNat = ((p.toNat + b.toNat) % 256 + 3) % 256 := by
    rw [UInt8.toNat_add, UInt8.toNat_add]
    rfl
  rw [h3]
  unfold Bradvm.int8 at h ⊢
  dsimp only
  split_ifs at h ⊢ <;> omega

theorem Form.opcode_ne (hf : Form a b inst) : inst.opcode ≠ opHalt ∧ inst.opcode ≠ opJump := by
  cases hf <;> dsimp only <;> decide

theorem get_of_index_zero {x : UInt8} (h : index memory p.toNat = some x) : get memory p = some x := by
  rw [index, if_pos (Int.natCast_nonneg _)] at h
  exact h

/-- The reference goes on behind an instruction of three bytes. -/
theorem reference_cycle (hm : memory.length = 256) (h0 : index memory p.toNat = some inst.opcode)
    (h1 : index memory (p.toNat + 1) = some a) (h2 : index memory (p.toNat + 2) = some b)
    (hf : Form a b inst) {p' x y : UInt8} {memory' : List UInt8}
    (he : Reference.execute ⟨[p, r1, r2], memory⟩ inst.opcode (pack a b) = some ⟨[p', x, y], memory'⟩) :
    Reference.cycle ⟨[p, r1, r2], memory⟩ = some (.running ⟨[p' + 3, x, y], memory'⟩) := by
  have hdec : Reference.decodeOperands memory [p, r1, r2] 0x02 = some (pack a b) :=
    decodeOperands_two hm h1 h2
  have hpc : get [p, r1, r2] Reference.pc = some p := rfl
  obtain ⟨hne1, hne2⟩ := hf.opcode_ne
  simp only [Reference.cycle, Reference.decode, Reference.advance, hpc, get_of_index_zero h0, hdec, he,
    if_neg hne1, if_neg hne2, if_pos hne2, Option.bind_eq_bind, Option.bind_some, Option.pure_def]
  rfl

/-- The reference does not move on behind a jump. -/
theorem reference_jump (hm : memory.length = 256) (h0 : get memory p = some opJump)
    (ha : index memory (p.toNat + 1) = some a) :
    Reference.cycle ⟨[p, r1, r2], memory⟩ = some (.running ⟨[a, r1, r2], memory⟩) := by
  have hpc : get [p, r1, r2] Reference.pc = some p := rfl
  have hput : put [p, r1, r2] Reference.pc a = some [a, r1, r2] := rfl
  simp +decide [Reference.cycle, hpc, h0, Reference.decode, decodeOperands_one hm ha, Reference.execute,
    Reference.jumpProcedure, Reference.State.setReg, Reference.advance, hput]

theorem reference_halt (h0 : get memory p = some opHalt) :
    Reference.cycle ⟨[p, r1, r2], memory⟩ = some (.halted ⟨[p + 1, r1, r2], memory⟩) := by
  have hpc : get [p, r1, r2] Reference.pc = some p := rfl
  have hput : put [p, r1, r2] Reference.pc (p + 1) = some [p + 1, r1, r2] := rfl
  simp +decide [Reference.cycle, hpc, h0, Reference.decode, Reference.execute, Reference.State.setReg,
    Reference.advance, hput]

/-- Registers 1 and 2 are read alike, whatever register 0 holds. -/
theorem reg_get (r1 r2 : UInt8) {r : UInt8} (hr : r = 1 ∨ r = 2) :
    ∃ v, ∀ z, get [z, r1, r2] r = some v := by
  rcases hr with rfl | rfl
  · exact ⟨r1, fun z => rfl⟩
  · exact ⟨r2, fun z => rfl⟩

/-- They are written alike too: an instruction that only sets one of them goes on in both machines. -/
theorem execute_setReg {r w : UInt8} (hr : r = 1 ∨ r = 2) (hm : memory.length = 256) {pc : ℤ}
    (hs : Bradvm.execute ⟨pc, [q, r1, r2], memory⟩ inst =
      (Bradvm.State.setReg ⟨pc, [q, r1, r2], memory⟩ r w).bind fun s => some (.next, none, s))
    (ht : Reference.execute ⟨[p, r1, r2], memory⟩ inst.opcode (pack a b) =
      Reference.State.setReg ⟨[p, r1, r2], memory⟩ r w) :
    ∃ x y memory', memory'.length = 256 ∧
      Bradvm.execute ⟨pc, [q, r1, r2], memory⟩ inst = some (.next, none, ⟨pc, [q, x, y], memory'⟩) ∧
      Reference.execute ⟨[p, r1, r2], memory⟩ inst.opcode (pack a b) = some ⟨[p, x, y], memory'⟩ := by
  rcases hr with rfl | rfl
  · exact ⟨w, r2, memory, hm, hs, ht⟩
  · exact ⟨r1, w, memory, hm, hs, ht⟩

/-- The two machines execute an instruction of three bytes alike: both go on, or both branch. -/
theorem Form.execute (hf : Form a b inst) (hr : ∀ r ∈ inst.registers, r = 1 ∨ r = 2)
    (hm : memory.length = 256) (p q r1 r2 : UInt8) (pc : ℤ) :
    (∃ x y memory', memory'.length = 256 ∧
      Bradvm.execute ⟨pc, [q, r1, r2], memory⟩ inst = some (.next, none, ⟨pc, [q, x, y], memory'⟩) ∧
      Reference.execute ⟨[p, r1, r2], memory⟩ inst.opcode (pack a b) = some ⟨[p, x, y], memory'⟩) ∨
    (Bradvm.execute ⟨pc, [q, r1, r2], memory⟩ inst =
        some (.jump (pc + 3 + Bradvm.int8 b), none, ⟨pc, [q, r1, r2], memory⟩) ∧
      Reference.execute ⟨[p, r1, r2], memory⟩ inst.opcode (pack a b) = some ⟨[p + b, r1, r2], memory⟩) := by
  have hb := b.toNat_lt
  cases hf with
  | beqz =>
    obtain ⟨v, hv⟩ := reg_get r1 r2 (hr a List.mem_cons_self)
    by_cases h0 : v = 0
    · right
      subst h0
      constructor
      · simp [Bradvm.execute, hv]
      · show Reference.beqzProcedure (pack a b) ⟨[p, r1, r2], memory⟩ = _
        simp only [Reference.beqzProcedure, pack_low, pack_high, hv]
        rfl
    · left
      refine ⟨r1, r2, memory, hm, by simp +decide [Bradvm.execute, hv, h0], ?_⟩
      show Reference.beqzProcedure (pack a b) ⟨[p, r1, r2], memory⟩ = _
      simp only [Reference.beqzProcedure, pack_low, pack_high, hv]
      simp [h0]
  | addi =>
    obtain ⟨v, hv⟩ := reg_get r1 r2 (hr a List.mem_cons_self)
    refine Or.inl (execute_setReg (w := v + b) (hr a List.mem_cons_self) hm ?_ ?_)
    · simp +decide [Bradvm.execute, hv]
    · show Reference.addiProcedure (pack a b) ⟨[p, r1, r2], memory⟩ = _
      simp only [Reference.addiProcedure, pack_low, pack_high, hv]
      rfl
  | subi =>
    obtain ⟨v, hv⟩ := reg_get r1 r2 (hr a List.mem_cons_self)
    refine Or.inl (execute_setReg (w := v - b) (hr a List.mem_cons_self) hm ?_ ?_)
    · simp +decide [Bradvm.execute, hv]
    · show Reference.subiProcedure (pack a b) ⟨[p, r1, r2], memory⟩ = _
      simp only [Reference.subiProcedure, pack_low, pack_high, hv]
      rfl
  | add =>
    obtain ⟨v, hv⟩ := reg_get r1 r2 (hr a List.mem_cons_self)
    obtain ⟨w, hw⟩ := reg_get r1 r2 (hr b (List.mem_cons_of_mem a List.mem_cons_self))
    refine Or.inl (execute_setReg (w := v + w) (hr a List.mem_cons_self) hm ?_ ?_)
    · simp +decide [Bradvm.execute, hv, hw]
    · show Reference.addProcedure (pack a b) ⟨[p, r1, r2], memory⟩ = _
      simp only [Reference.addProcedure, pack_low, pack_high, hv, hw]
      rfl
  | sub =>
    obtain ⟨v, hv⟩ := reg_get r1 r2 (hr a List.mem_cons_self)
    obtain ⟨w, hw⟩ := reg_get r1 r2 (hr b (List.mem_cons_of_mem a List.mem_cons_self))
    refine Or.inl (execute_setReg (w := v - w) (hr a List.mem_cons_self) hm ?_ ?_)
    · simp +decide [Bradvm.execute, hv, hw]
    · show Reference.subProcedure (pack a b) ⟨[p, r1, r2], memory⟩ = _
      simp only [Reference.subProcedure, pack_low, pack_high, hv, hw]
      rfl
  | load =>
    obtain ⟨v, hv⟩ : ∃ v, get memory b = some v := ⟨_, List.getElem?_eq_getElem (by omega)⟩
    refine Or.inl (execute_setReg (w := v) (hr a List.mem_cons_self) hm ?_ ?_)
    · simp +decide [Bradvm.execute, hv]
    · show Reference.loadProcedure (pack a b) ⟨[p, r1, r2], memory⟩ = _
      simp only [Reference.loadProcedure, pack_low, pack_high, hv]
      rfl
  | store =>
    left
    obtain ⟨v, hv⟩ := reg_get r1 r2 (hr a List.mem_cons_self)
    have hput : put memory b v = some (memory.set b.toNat v) := if_pos (by omega)
    refine ⟨r1, r2, memory.set b.toNat v, by rw [List.length_set]; exact hm,
      by simp +decide [Bradvm.execute, hv, hput], ?_⟩
    show Reference.storeProcedure (pack a b) ⟨[p, r1, r2], memory⟩ = _
    simp only [Reference.storeProcedure, pack_low, pack_high, hv]
    simp [hput]

/-- **One cycle** of a proper instruction keeps the machines in agreement, or halts both of them. -/
theorem Agree.cycle {s : Bradvm.State} {t : Reference.State} (h : Agree s t) (hp : Proper s) :
    ∃ x y, Bradvm.cycle s = some x ∧ Reference.cycle t = some y ∧
      Outcome.Related Agree (fun s t => t.memory = s.memory) x y := by
  obtain ⟨pc, registers, memory'⟩ := s
  obtain ⟨registers', memory⟩ := t
  obtain ⟨hm, h1, p, q, r1, r2, h2, h3, h4⟩ := h
  dsimp only at hm h1 h2 h3 h4
  subst h1 h2 h3 h4
  obtain ⟨inst, hd, hr, hsucc⟩ := hp
  obtain ⟨h0, hcases⟩ := decode_cases hd
  rcases hcases with ⟨a, b, ha, hb, hf⟩ | ⟨a, ha, rfl⟩ | rfl
  · have hlen : inst.length = 3 := by cases hf <;> rfl
    rcases hf.execute hr hm p q r1 r2 p.toNat with
      ⟨x, y, memory', hm', he, he'⟩ | ⟨he, he'⟩
    · have hc : Bradvm.cycle ⟨p.toNat, [q, r1, r2], memory⟩ =
          some (.running ⟨p.toNat + 3, [q, x, y], memory'⟩) := by
        simp [Bradvm.cycle, hd, he, hlen]
      exact ⟨_, _, hc, reference_cycle hm h0 ha hb hf he', agree_next hm' (hsucc _ hc).2⟩
    · have hc : Bradvm.cycle ⟨p.toNat, [q, r1, r2], memory⟩ =
          some (.running ⟨p.toNat + 3 + Bradvm.int8 b, [q, r1, r2], memory⟩) := by
        simp [Bradvm.cycle, hd, he]
      exact ⟨_, _, hc, reference_cycle hm h0 ha hb hf he', agree_branch hm (hsucc _ hc)⟩
  · exact ⟨.running ⟨a.toNat, [q, r1, r2], memory⟩, .running ⟨[a, r1, r2], memory⟩,
      by simp +decide [Bradvm.cycle, hd, Bradvm.execute], reference_jump hm (get_of_index_zero h0) ha,
      hm, rfl, a, q, r1, r2, rfl, rfl, rfl⟩
  · exact ⟨.halted ⟨p.toNat, [q, r1, r2], memory⟩, .halted ⟨[p + 1, r1, r2], memory⟩,
      by simp +decide [Bradvm.cycle, hd, Bradvm.execute], reference_halt (get_of_index_zero h0), rfl⟩

end Cycle

/-! ## Runs -/

/-- **The two machines agree**: on every memory image, as long as every executed instruction is proper,
both run the same number of cycles; after every one of them memory, registers 1 and 2 and program
counter agree, and if one machine halts, so does the other, with the same memory. -/
theorem lockstep (memory : List UInt8) (hm : memory.length = 256) (n : ℕ)
    (hp : ∀ k < n, ∀ s, cycles Bradvm.cycle k (Bradvm.newCPU memory) = some (.running s) → Proper s) :
    ∃ x y, cycles Bradvm.cycle n (Bradvm.newCPU memory) = some x ∧
      cycles Reference.cycle n (Reference.start memory) = some y ∧
      Outcome.Related Agree (fun s t => t.memory = s.memory) x y :=
  cycles_related (fun _ _ h hs => h.cycle hs) n (Bradvm.newCPU memory) (Reference.start memory)
    ⟨hm, rfl, 8, 0, 0, 0, rfl, rfl, rfl⟩ hp

/-- `addi r1, 0xff` and `store r1, 14`, which writes the `halt` that is executed next. -/
def sampleImage : List UInt8 :=
  List.replicate 8 0 ++ [opAddi, 1, 0xff, opStore, 1, 14] ++ List.replicate 242 0

theorem sampleImage_length : sampleImage.length = 256 := by
  unfold sampleImage
  rw [List.length_append, List.length_append, List.length_replicate, List.length_replicate]
  rfl

set_option maxRecDepth 2000 in
theorem sampleImage_proper : ∀ k < 3, ∀ s,
    cycles Bradvm.cycle k (Bradvm.newCPU sampleImage) = some (.running s) → Proper s := by
  have h1 : Bradvm.cycle (Bradvm.newCPU sampleImage) = some (.running ⟨11, [0, 0xff, 0], sampleImage⟩) := rfl
  have h2 : Bradvm.cycle ⟨11, [0, 0xff, 0], sampleImage⟩ =
      some (.running ⟨14, [0, 0xff, 0], sampleImage.set 14 0xff⟩) := rfl
  have h3 : Bradvm.cycle ⟨14, [0, 0xff, 0], sampleImage.set 14 0xff⟩ =
      some (.halted ⟨14, [0, 0xff, 0], sampleImage.set 14 0xff⟩) := rfl
  intro k hk s hs
  match k with
  | 0 =>
    obtain rfl := Outcome.running.inj (Option.some.inj hs)
    refine ⟨⟨opAddi, 1, 0, 0, 0xff, 3⟩, rfl, by decide, fun s' hs' => ?_⟩
    obtain rfl := Outcome.running.inj (Option.some.inj (h1.symm.trans hs'))
    decide
  | 1 =>
    rw [cycles, h1] at hs
    obtain rfl := Outcome.running.inj (Option.some.inj hs)
    refine ⟨⟨opStore, 0, 1, 14, 0, 3⟩, rfl, by decide, fun s' hs' => ?_⟩
    obtain rfl := Outcome.running.inj (Option.some.inj (h2.symm.trans hs'))
    decide
  | 2 =>
    rw [cycles, h1] at hs
    dsimp only at hs
    rw [cycles, h2] at hs
    obtain rfl := Outcome.running.inj (Option.some.inj hs)
    refine ⟨⟨opHalt, 0, 0, 0, 0, 1⟩, rfl, by decide, fun s' hs' => ?_⟩
    rw [h3] at hs'
    cases hs'

theorem lockstep_sample : ∃ x y, cycles Bradvm.cycle 3 (Bradvm.newCPU sampleImage) = some x ∧
    cycles Reference.cycle 3 (Reference.start sampleImage) = some y ∧
    Outcome.Related Agree (fun s t => t.memory = s.memory) x y :=
  lockstep sampleImage sampleImage_length 3 sampleImage_proper

end Csapp.Vm
