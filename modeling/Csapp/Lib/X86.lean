import Csapp.Lib.Machine
import Mathlib.Algebra.Ring.Nat
import Mathlib.Data.Nat.ModEq
import Mathlib.Logic.Function.Basic

/-!
# Lib.X86 — a part of the x86-64 machine, with its stack

Registers, flags, a flat memory of bytes, and the instructions of small leaf and recursive routines.  A routine is
a list of instructions that stands at addresses `addr 0`, `addr 1`, …: how long their encodings are is left open.
Operations are pure functions of the data (`Op.run`), and a block of them is one step of a proof (`Loaded.ops`).
A call is described by what its callee keeps (`Returned`), seen from the caller (`Returned.of_push`).
-/

namespace Csapp.Lib.X86

abbrev Word := BitVec 64

/-! ## Memory, little-endian -/

section Memory

variable {mem mem' : Word → UInt8} {a : Word} {n v : ℕ}

def loadLE (mem : Word → UInt8) (a : Word) : ℕ → ℕ
  | 0 => 0
  | n + 1 => (mem a).toNat + 256 * loadLE mem (a + 1) n

def storeLE (mem : Word → UInt8) (a : Word) (n v : ℕ) : Word → UInt8 := fun b =>
  if (b - a).toNat < n then UInt8.ofNat (v / 256 ^ (b - a).toNat) else mem b

theorem add_ofNat_succ (a : Word) (k : ℕ) : a + BitVec.ofNat 64 (k + 1) = a + 1 + BitVec.ofNat 64 k := by
  rw [Nat.add_comm k 1, BitVec.ofNat_add, BitVec.add_assoc]
  rfl

theorem loadLE_eq_mod (h : ∀ k < n, mem (a + BitVec.ofNat 64 k) = UInt8.ofNat (v / 256 ^ k)) :
    loadLE mem a n = v % 256 ^ n := by
  induction n generalizing a v with
  | zero => rw [loadLE, Nat.pow_zero, Nat.mod_one]
  | succ n ih =>
    have h0 := h 0 (Nat.succ_pos n)
    rw [BitVec.add_zero, Nat.pow_zero, Nat.div_one] at h0
    have htail : loadLE mem (a + 1) n = v / 256 % 256 ^ n := by
      refine ih fun k hk => ?_
      have hk := h (k + 1) (Nat.succ_lt_succ hk)
      rwa [add_ofNat_succ, Nat.pow_succ', ← Nat.div_div_eq_div_mul] at hk
    have hhead : (UInt8.ofNat v).toNat = v % 256 := UInt8.toNat_ofNat'
    rw [loadLE, h0, htail, hhead, Nat.pow_succ', Nat.mod_mul]

theorem loadLE_congr (h : ∀ k < n, mem' (a + BitVec.ofNat 64 k) = mem (a + BitVec.ofNat 64 k)) :
    loadLE mem' a n = loadLE mem a n := by
  induction n generalizing a with
  | zero => rfl
  | succ n ih =>
    have h0 := h 0 (Nat.succ_pos n)
    rw [BitVec.add_zero] at h0
    rw [loadLE, loadLE, h0, ih fun k hk => ?_]
    have hk := h (k + 1) (Nat.succ_lt_succ hk)
    rwa [add_ofNat_succ] at hk

theorem storeLE_of_le {b : Word} (h : n ≤ (b - a).toNat) : storeLE mem a n v b = mem b :=
  if_neg (Nat.not_lt.mpr h)

theorem loadLE_storeLE (hn : n ≤ 2 ^ 64) : loadLE (storeLE mem a n v) a n = v % 256 ^ n := by
  refine loadLE_eq_mod fun k hk => ?_
  have hd : (a + BitVec.ofNat 64 k - a).toNat = k := by
    rw [BitVec.add_comm, BitVec.add_sub_cancel, BitVec.toNat_ofNat, Nat.mod_eq_of_lt (hk.trans_le hn)]
  rw [storeLE, hd, if_pos hk]

def load64 (mem : Word → UInt8) (a : Word) : Word := BitVec.ofNat 64 (loadLE mem a 8)

def store64 (mem : Word → UInt8) (a v : Word) : Word → UInt8 := storeLE mem a 8 v.toNat

@[simp] theorem load64_store64 (mem : Word → UInt8) (a v : Word) : load64 (store64 mem a v) a = v := by
  have hv : v.toNat % 256 ^ 8 = v.toNat := Nat.mod_eq_of_lt v.isLt
  rw [load64, store64, loadLE_storeLE (by decide), hv, BitVec.ofNat_toNat, BitVec.setWidth_eq]

end Memory

/-! ## The machine -/

inductive Reg
  | rax | rcx | rdx | rbx | rsp | rbp | rsi | rdi
  | r8 | r9 | r10 | r11 | r12 | r13 | r14 | r15
  deriving DecidableEq

/-- What instructions work on.  The flags `zf`, `sf` and `ovf` (the overflow flag) are the ones that conditions
read. -/
structure Data where
  reg : Reg → Word
  zf : Bool
  sf : Bool
  ovf : Bool
  mem : Word → UInt8

structure State where
  rip : Word
  data : Data

structure Address where
  base : Reg
  index : Option Reg := none
  disp : Word := 0

/-- Operations on 32 bits clear the upper half of the register they write. -/
inductive Op
  | mov32 (dst src : Reg)
  | mov64 (dst src : Reg)
  | movzx8 (dst : Reg) (src : Address)
  | lea (dst : Reg) (src : Address)
  | xor32 (dst src : Reg)
  | or32 (dst : Reg) (imm : BitVec 32)
  | and32 (dst : Reg) (imm : BitVec 32)
  | sub32 (dst : Reg) (imm : BitVec 32)
  | cmp32 (src : Reg) (imm : BitVec 32)
  | bts32 (dst index : Reg)
  | inc64 (dst : Reg)
  | dec64 (dst : Reg)
  | sete (dst : Reg)
  | push (src : Reg)
  | pop (dst : Reg)

/-- Targets are addresses. -/
inductive Instr
  | op (o : Op)
  | jmp (target : Word)
  | je (target : Word)
  | jle (target : Word)
  | call (target : Word)
  | ret

namespace Data

variable (d : Data)

def setReg (r : Reg) (v : Word) : Data := { d with reg := Function.update d.reg r v }

def reg32 (r : Reg) : BitVec 32 := (d.reg r).setWidth 32

def setReg32 (r : Reg) (v : BitVec 32) : Data := d.setReg r (v.setWidth 64)

def flags {w : ℕ} (v : BitVec w) (o : Bool) : Data := { d with zf := v == 0, sf := v.msb, ovf := o }

def push (v : Word) : Data := { d.setReg .rsp (d.reg .rsp - 8) with mem := store64 d.mem (d.reg .rsp - 8) v }

/-- The word on top of the stack. -/
def top : Word := load64 d.mem (d.reg .rsp)

def drop : Data := d.setReg .rsp (d.reg .rsp + 8)

def address (a : Address) : Word :=
  d.reg a.base + (match a.index with | none => 0 | some r => d.reg r) + a.disp

end Data

/-- `bts` leaves `zf` alone; what it does to the other two is not defined, and no condition reads them before they
are set again. -/
def Op.run (d : Data) : Op → Data
  | .mov32 dst src => d.setReg32 dst (d.reg32 src)
  | .mov64 dst src => d.setReg dst (d.reg src)
  | .movzx8 dst src => d.setReg32 dst ((d.mem (d.address src)).toBitVec.setWidth 32)
  | .lea dst src => d.setReg dst (d.address src)
  | .xor32 dst src => (d.setReg32 dst (d.reg32 dst ^^^ d.reg32 src)).flags (d.reg32 dst ^^^ d.reg32 src) false
  | .or32 dst imm => (d.setReg32 dst (d.reg32 dst ||| imm)).flags (d.reg32 dst ||| imm) false
  | .and32 dst imm => (d.setReg32 dst (d.reg32 dst &&& imm)).flags (d.reg32 dst &&& imm) false
  | .sub32 dst imm =>
    (d.setReg32 dst (d.reg32 dst - imm)).flags (d.reg32 dst - imm) (BitVec.ssubOverflow (d.reg32 dst) imm)
  | .cmp32 src imm => d.flags (d.reg32 src - imm) (BitVec.ssubOverflow (d.reg32 src) imm)
  | .bts32 dst index => d.setReg32 dst (d.reg32 dst ||| BitVec.twoPow 32 ((d.reg32 index).toNat % 32))
  | .inc64 dst => (d.setReg dst (d.reg dst + 1)).flags (d.reg dst + 1) (BitVec.saddOverflow (d.reg dst) 1)
  | .dec64 dst => (d.setReg dst (d.reg dst - 1)).flags (d.reg dst - 1) (BitVec.ssubOverflow (d.reg dst) 1)
  | .sete dst => d.setReg dst (d.reg dst >>> 8 <<< 8 ||| if d.zf then 1 else 0)
  | .push src => d.push (d.reg src)
  | .pop dst => d.drop.setReg dst d.top

/-- `next` is the address of the instruction that follows. -/
def Instr.exec (next : Word) (d : Data) : Instr → State
  | .op o => ⟨next, o.run d⟩
  | .jmp target => ⟨target, d⟩
  | .je target => ⟨if d.zf then target else next, d⟩
  | .jle target => ⟨if d.zf || d.sf != d.ovf then target else next, d⟩
  | .call target => ⟨target, d.push next⟩
  | .ret => ⟨d.top, d.drop⟩

/-- The instruction at an address, with the address behind it. -/
abbrev Code := Word → Option (Instr × Word)

/-- The machine halts where control leaves the code. -/
def cycle (code : Code) (s : State) : Option (Outcome State) :=
  match code s.rip with
  | none => some (.halted s)
  | some (i, next) => some (.running (i.exec next s.data))

/-- Instruction `i` of `prog` stands at `addr i`. -/
def Loaded (code : Code) (addr : ℕ → Word) (prog : List Instr) : Prop :=
  ∀ i (h : i < prog.length), code (addr i) = some (prog[i], addr (i + 1))

section Run

variable {code : Code} {addr : ℕ → Word} {prog : List Instr} {i : ℕ} {d : Data}

theorem Loaded.step (h : Loaded code addr prog) {ins : Instr} (hi : prog[i]? = some ins) (d : Data) :
    Reaches (cycle code) ⟨addr i, d⟩ (ins.exec (addr (i + 1)) d) := by
  obtain ⟨hlt, rfl⟩ := List.getElem?_eq_some_iff.mp hi
  refine Reaches.step ?_
  rw [cycle, h i hlt]

theorem Loaded.je (h : Loaded code addr prog) {t : Word} (hi : prog[i]? = some (.je t)) {p : Prop} [Decidable p]
    (hp : d.zf = true ↔ p) : Reaches (cycle code) ⟨addr i, d⟩ ⟨if p then t else addr (i + 1), d⟩ := by
  have hstep := h.step hi d
  rwa [Instr.exec, if_congr hp rfl rfl] at hstep

theorem Loaded.jle (h : Loaded code addr prog) {t : Word} (hi : prog[i]? = some (.jle t)) {p : Prop} [Decidable p]
    (hp : (d.zf || d.sf != d.ovf) = true ↔ p) :
    Reaches (cycle code) ⟨addr i, d⟩ ⟨if p then t else addr (i + 1), d⟩ := by
  have hstep := h.step hi d
  rwa [Instr.exec, if_congr hp rfl rfl] at hstep

/-- The rule of a block: its operations run one after the other. -/
theorem Loaded.ops (h : Loaded code addr prog) (ops : List Op) {rest : List Instr}
    (hi : prog.drop i = ops.map .op ++ rest) (d : Data) :
    Reaches (cycle code) ⟨addr i, d⟩ ⟨addr (i + ops.length), ops.foldl Op.run d⟩ := by
  induction ops generalizing i d with
  | nil => exact Reaches.refl _ _
  | cons o ops ih =>
    have hop : prog[i]? = some (.op o) := by
      rw [← List.head?_drop, hi]
      rfl
    have hrest : prog.drop (i + 1) = ops.map .op ++ rest := by
      rw [← List.tail_drop, hi]
      rfl
    rw [List.length_cons, Nat.add_comm ops.length, ← Nat.add_assoc]
    exact (h.step hop d).trans (ih hrest (o.run d))

/-- A routine that starts at `base`, with one address an instruction. -/
def place (base : ℕ) (prog : (ℕ → Word) → List Instr) : Code := fun a =>
  if base ≤ a.toNat then
    (prog fun i => BitVec.ofNat 64 (base + i))[a.toNat - base]?.map fun ins => (ins, a + 1)
  else none

theorem loaded_place (base : ℕ) {prog : (ℕ → Word) → List Instr}
    (h : base + (prog fun i => BitVec.ofNat 64 (base + i)).length ≤ 2 ^ 64) :
    Loaded (place base prog) (fun i => BitVec.ofNat 64 (base + i)) (prog fun i => BitVec.ofNat 64 (base + i)) := by
  intro i hi
  have ha : (BitVec.ofNat 64 (base + i)).toNat = base + i := by
    rw [BitVec.toNat_ofNat, Nat.mod_eq_of_lt (by omega)]
  have hnext : BitVec.ofNat 64 (base + i) + 1 = BitVec.ofNat 64 (base + (i + 1)) :=
    (BitVec.ofNat_add (base + i) 1).symm
  rw [place, ha, if_pos (Nat.le_add_right base i), Nat.add_sub_cancel_left, List.getElem?_eq_getElem hi,
    Option.map_some, hnext]

theorem halts_of_none {s : State} (h : code s.rip = none) : Halts (cycle code) s s := by
  refine Halts.step ?_
  rw [cycle, h]

end Run

/-! ## Registers and flags after an operation -/

section Simp

variable (d : Data) (r q : Reg) (v : Word)

@[simp] theorem setReg_reg_self : (d.setReg r v).reg r = v := Function.update_self ..

@[simp] theorem setReg_reg_ne (h : q ≠ r) : (d.setReg r v).reg q = d.reg q := Function.update_of_ne h ..

@[simp] theorem setReg_mem : (d.setReg r v).mem = d.mem := rfl

@[simp] theorem setReg_zf : (d.setReg r v).zf = d.zf := rfl

@[simp] theorem setReg32_reg_self (v : BitVec 32) : (d.setReg32 r v).reg r = v.setWidth 64 :=
  setReg_reg_self ..

@[simp] theorem setReg32_reg_ne (v : BitVec 32) (h : q ≠ r) : (d.setReg32 r v).reg q = d.reg q :=
  setReg_reg_ne _ _ _ _ h

@[simp] theorem setReg32_reg32_self (v : BitVec 32) : (d.setReg32 r v).reg32 r = v := by
  rw [Data.reg32, setReg32_reg_self, BitVec.setWidth_setWidth_of_le _ (by decide), BitVec.setWidth_eq]

@[simp] theorem setReg32_reg32_ne (v : BitVec 32) (h : q ≠ r) : (d.setReg32 r v).reg32 q = d.reg32 q := by
  rw [Data.reg32, setReg32_reg_ne _ _ _ _ h, Data.reg32]

@[simp] theorem setReg32_mem (v : BitVec 32) : (d.setReg32 r v).mem = d.mem := rfl

@[simp] theorem setReg32_zf (v : BitVec 32) : (d.setReg32 r v).zf = d.zf := rfl

@[simp] theorem setReg_reg32_ne (h : q ≠ r) : (d.setReg r v).reg32 q = d.reg32 q := by
  rw [Data.reg32, setReg_reg_ne _ _ _ _ h, Data.reg32]

variable {w : ℕ} (x : BitVec w) (o : Bool)

@[simp] theorem flags_reg : (d.flags x o).reg = d.reg := rfl

@[simp] theorem flags_reg32 : (d.flags x o).reg32 r = d.reg32 r := rfl

@[simp] theorem flags_mem : (d.flags x o).mem = d.mem := rfl

@[simp] theorem flags_zf : (d.flags x o).zf = (x == 0) := rfl

@[simp] theorem push_reg_rsp : (d.push v).reg .rsp = d.reg .rsp - 8 := setReg_reg_self d .rsp _

@[simp] theorem push_reg_ne (h : q ≠ .rsp) : (d.push v).reg q = d.reg q := setReg_reg_ne _ _ _ _ h

@[simp] theorem push_top : (d.push v).top = v := by
  rw [Data.top, push_reg_rsp]
  exact load64_store64 _ _ _

@[simp] theorem setReg_top (h : r ≠ .rsp) : (d.setReg r v).top = d.top := by
  rw [Data.top, Data.top, setReg_mem, setReg_reg_ne _ _ _ _ h.symm]

@[simp] theorem flags_top : (d.flags x o).top = d.top := rfl

@[simp] theorem drop_reg_rsp : d.drop.reg .rsp = d.reg .rsp + 8 := setReg_reg_self ..

@[simp] theorem drop_reg_ne (h : q ≠ .rsp) : d.drop.reg q = d.reg q := setReg_reg_ne _ _ _ _ h

@[simp] theorem drop_mem : d.drop.mem = d.mem := rfl

end Simp

theorem sub_eq_zero_iff {w : ℕ} {x y : BitVec w} : x - y = 0#w ↔ x = y := by
  rw [BitVec.sub_eq_iff_eq_add, BitVec.zero_add]

/-- The condition of `jle` after a comparison: less or equal as signed numbers. -/
theorem jle_cond (x y : BitVec 32) :
    ((x - y == 0) || (x - y).msb != BitVec.ssubOverflow x y) = true ↔ x.toInt ≤ y.toInt := by
  have hx := BitVec.toInt_lt (x := x)
  have hx' := BitVec.le_toInt (x := x)
  have hy := BitVec.toInt_lt (x := y)
  have hy' := BitVec.le_toInt (x := y)
  have hzero : x - y = 0 ↔ x.toInt = y.toInt := by
    rw [BitVec.toInt_inj]
    exact sub_eq_zero_iff
  have hsign : (x - y).msb = true ↔ (x.toInt - y.toInt).bmod (2 ^ 32) < 0 := by
    rw [BitVec.msb_eq_toInt, BitVec.toInt_sub, decide_eq_true_iff]
  have hover : BitVec.ssubOverflow x y = true ↔
      x.toInt - y.toInt ≥ 2 ^ 31 ∨ x.toInt - y.toInt < -2 ^ 31 := by
    rw [BitVec.ssubOverflow, Bool.or_eq_true, decide_eq_true_iff, decide_eq_true_iff]
  rw [Bool.or_eq_true, beq_iff_eq, bne_iff_ne, ne_eq, Bool.eq_iff_iff, hzero, hsign, hover, Int.bmod]
  omega

/-! ## The stack across a call -/

/-- One of the `n` bytes under `sp`. -/
def Below (sp : Word) (n : ℕ) (a : Word) : Prop := (sp - 1 - a).toNat < n

section Stack

variable {d d' : Data} {a v sp : Word} {m n : ℕ}

theorem Below.mono (h : Below sp m a) (hmn : m ≤ n) : Below sp n a := h.trans_le hmn

theorem Below.of_sub (h : Below (sp - 8) n a) : Below sp (n + 8) a := by
  simp only [Below, BitVec.toNat_sub, BitVec.reduceToNat] at h ⊢
  omega

/-- Nothing at or above `sp` is under it, as long as the stack does not wrap. -/
theorem not_below_of_le (hn : n ≤ sp.toNat) (h : sp ≤ a) : ¬Below sp n a := by
  have ha := a.isLt
  have hle : sp.toNat ≤ a.toNat := BitVec.le_def.mp h
  simp only [Below, BitVec.toNat_sub, BitVec.reduceToNat]
  omega

/-- A word on the stack is not among the bytes under it. -/
theorem not_below_add {k : ℕ} (hk : k < 8) (hn : n + 8 ≤ 2 ^ 64) : ¬Below sp n (sp + BitVec.ofNat 64 k) := by
  simp only [Below, BitVec.toNat_sub, BitVec.toNat_add, BitVec.toNat_ofNat, BitVec.reduceToNat]
  omega

theorem push_mem (h : ¬Below (d.reg .rsp) 8 a) : (d.push v).mem a = d.mem a := by
  refine storeLE_of_le ?_
  simp only [Below, BitVec.toNat_sub, BitVec.reduceToNat] at h ⊢
  omega

/-- Some registers, and memory but for `n` bytes under `sp`, are what they were. -/
structure Keeps (saved : List Reg) (sp : Word) (n : ℕ) (d d' : Data) : Prop where
  saved : ∀ r ∈ saved, d'.reg r = d.reg r
  mem : ∀ a, ¬Below sp n a → d'.mem a = d.mem a

namespace Keeps

variable {saved : List Reg} {d'' : Data}

theorem refl (saved : List Reg) (sp : Word) (n : ℕ) (d : Data) : Keeps saved sp n d d :=
  ⟨fun _ _ => rfl, fun _ _ => rfl⟩

theorem trans (h : Keeps saved sp n d d') (h' : Keeps saved sp n d' d'') : Keeps saved sp n d d'' :=
  ⟨fun r hr => (h'.saved r hr).trans (h.saved r hr), fun a ha => (h'.mem a ha).trans (h.mem a ha)⟩

theorem mono (h : Keeps saved sp m d d') (hmn : m ≤ n) : Keeps saved sp n d d' :=
  ⟨h.saved, fun a ha => h.mem a fun hb => ha (hb.mono hmn)⟩

theorem subset {saved' : List Reg} (h : Keeps saved sp n d d') (hs : saved' ⊆ saved) : Keeps saved' sp n d d' :=
  ⟨fun r hr => h.saved r (hs hr), h.mem⟩

theorem of_sub (h : Keeps saved (sp - 8) n d d') : Keeps saved sp (n + 8) d d' :=
  ⟨h.saved, fun a ha => h.mem a fun hb => ha hb.of_sub⟩

theorem setReg (h : Keeps saved sp n d d') {r : Reg} (hr : r ∉ saved) : Keeps saved sp n d (d'.setReg r v) :=
  ⟨fun q hq => (setReg_reg_ne d' r q v fun he => hr (he ▸ hq)).trans (h.saved q hq), h.mem⟩

theorem flags {w : ℕ} {x : BitVec w} {o : Bool} (h : Keeps saved sp n d d') :
    Keeps saved sp n d (d'.flags x o) := ⟨h.saved, h.mem⟩

theorem push (h : Keeps saved sp n d d') (hsp : .rsp ∉ saved) (hn : 8 ≤ n) (hd : d'.reg .rsp = sp) :
    Keeps saved sp n d (d'.push v) := by
  refine ⟨fun r hr => ?_, fun a ha => ?_⟩
  · rw [push_reg_ne _ _ _ fun he => hsp (he ▸ hr), h.saved r hr]
  · rw [push_mem fun hb => ha (hd ▸ hb.mono hn), h.mem a ha]

/-- The word at `sp` is not under it. -/
theorem load64 (h : Keeps saved sp n d d') (hn : n + 8 ≤ 2 ^ 64) : load64 d'.mem sp = load64 d.mem sp := by
  rw [X86.load64, X86.load64, loadLE_congr fun k hk => h.mem _ (not_below_add hk hn)]

theorem top (h : Keeps saved (d.reg .rsp) n d d') (hn : n + 8 ≤ 2 ^ 64) (hd : d'.reg .rsp = d.reg .rsp) :
    d'.top = d.top := by
  rw [Data.top, hd]
  exact h.load64 hn

end Keeps

/-- What a callee has done when it returns: `d` is the data when it is entered, with the return address on top of
the stack. -/
structure Returned (saved : List Reg) (n : ℕ) (d d' : Data) : Prop extends Keeps saved (d.reg .rsp) n d d' where
  rsp : d'.reg .rsp = d.reg .rsp + 8

/-- Seen from the caller, which has pushed the return address. -/
theorem Returned.of_push {saved : List Reg} (hsp : .rsp ∉ saved) (h : Returned saved n (d.push v) d') :
    d'.reg .rsp = d.reg .rsp ∧ Keeps saved (d.reg .rsp) (n + 8) d d' := by
  refine ⟨by rw [h.rsp, push_reg_rsp, BitVec.sub_add_cancel], ?_⟩
  have hk := h.toKeeps
  rw [push_reg_rsp] at hk
  exact ((Keeps.refl _ _ _ d).push hsp (Nat.le_add_left 8 n) rfl).trans hk.of_sub

end Stack

end Csapp.Lib.X86
