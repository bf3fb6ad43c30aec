import Csapp.Lib.X86
import Mathlib.Data.BitVec
import Mathlib.Data.Nat.Fib.Basic

/-!
# Asm.Fib — the recursive Fibonacci routine

The routine keeps `n` and then `fib (n - 1)` on the stack across its two calls.  `FibReturns` is its contract; a
call from within the routine is used through the contract of the smaller number (`FibReturns.call`), and the three
pieces of straight code between the calls have one lemma each.
-/

namespace Csapp.Asm

open Csapp.Lib Csapp.Lib.X86

/-- `fib`; instruction 14 is `done`. -/
def fib (addr : ℕ → Word) : List Instr := [
  .op (.mov32 .rax .rdi),
  .op (.cmp32 .rax 1),
  .jle (addr 14),
  .op (.mov32 .rcx .rdi),
  .op (.push .rcx),
  .op (.dec64 .rdi),
  .call (addr 0),
  .op (.mov64 .rdx .rax),
  .op (.pop .rcx),
  .op (.lea .rdi ⟨.rcx, none, -2⟩),
  .op (.push .rdx),
  .call (addr 0),
  .op (.pop .rdx),
  .op (.lea .rax ⟨.rax, some .rdx, 0⟩),
  .ret]

/-- The registers that a callee keeps. -/
def calleeSaved : List Reg := [.rbx, .rbp, .r12, .r13, .r14, .r15]

theorem rsp_not_saved : .rsp ∉ calleeSaved := by decide

/-- A call with `n` in `rdi` returns with the Fibonacci number in `rax`, below its stack pointer it has written
`16 * (n - 1)` bytes at most. -/
def FibReturns (code : Code) (addr : ℕ → Word) (n : ℕ) : Prop :=
  ∀ d : Data, d.reg .rdi = BitVec.ofNat 64 n →
    ∃ d', Reaches (cycle code) ⟨addr 0, d⟩ ⟨d.top, d'⟩ ∧ Returned calleeSaved (16 * (n - 1)) d d' ∧
      d'.reg .rax = BitVec.ofNat 64 (Nat.fib n)

section Fib

variable {code : Code} {addr : ℕ → Word} {n : ℕ} {d : Data}

theorem setWidth_ofNat (hn : n < 2 ^ 31) : (BitVec.ofNat 32 n).setWidth 64 = BitVec.ofNat 64 n := by
  apply BitVec.eq_of_toNat_eq
  rw [BitVec.toNat_setWidth, BitVec.toNat_ofNat, BitVec.toNat_ofNat]
  omega

theorem toInt_le_one_iff (hn : n < 2 ^ 31) : (BitVec.ofNat 32 n).toInt ≤ (1 : BitVec 32).toInt ↔ n ≤ 1 := by
  have h1 : (1 : BitVec 32).toInt = 1 := rfl
  rw [BitVec.toInt_ofNat', h1, Int.bmod]
  omega

/-- Up to the branch. -/
theorem fib_compare (hload : Loaded code addr (fib addr)) (hn : n < 2 ^ 31)
    (hd : d.reg .rdi = BitVec.ofNat 64 n) :
    ∃ e, Reaches (cycle code) ⟨addr 0, d⟩ ⟨if n ≤ 1 then addr 14 else addr 3, e⟩ ∧
      Keeps (.rdi :: .rsp :: calleeSaved) (d.reg .rsp) 0 d e ∧ e.reg .rax = BitVec.ofNat 64 n := by
  have hedi : d.reg32 .rdi = BitVec.ofNat 32 n := by
    rw [Data.reg32, hd, BitVec.setWidth_ofNat_of_le (by decide)]
  have heax : (d.setReg32 .rax (d.reg32 .rdi)).reg32 .rax = BitVec.ofNat 32 n := by
    rw [setReg32_reg32_self, hedi]
  refine ⟨[Op.mov32 .rax .rdi, .cmp32 .rax 1].foldl Op.run d, ?_, ?_, ?_⟩
  · refine (hload.ops (i := 0) [.mov32 .rax .rdi, .cmp32 .rax 1] rfl d).trans (hload.jle rfl ?_)
    refine (jle_cond ((d.setReg32 .rax (d.reg32 .rdi)).reg32 .rax) 1).trans ?_
    rw [heax, toInt_le_one_iff hn]
  · exact ((Keeps.refl _ _ _ d).setReg (by decide)).flags
  · simp [Op.run, hedi, setWidth_ofNat hn]

theorem ofNat_sub_one (n : ℕ) : BitVec.ofNat 64 (n + 2) - 1 = BitVec.ofNat 64 (n + 1) := by
  rw [← Nat.add_assoc n 1 1, BitVec.ofNat_add (n + 1) 1]
  exact BitVec.add_sub_cancel _ _

theorem ofNat_sub_two (n : ℕ) : BitVec.ofNat 64 (n + 2) + -2 = BitVec.ofNat 64 n := by
  rw [BitVec.ofNat_add n 2, ← BitVec.sub_eq_add_neg]
  exact BitVec.add_sub_cancel _ _

/-- The first argument: `n` is on the stack. -/
theorem fib_first (hload : Loaded code addr (fib addr)) (hn : n + 2 < 2 ^ 31)
    (hd : d.reg .rdi = BitVec.ofNat 64 (n + 2)) :
    ∃ e, Reaches (cycle code) ⟨addr 3, d⟩ ⟨addr 6, e⟩ ∧ Keeps calleeSaved (d.reg .rsp) 8 d e ∧
      e.reg .rsp = d.reg .rsp - 8 ∧ e.top = BitVec.ofNat 64 (n + 2) ∧ e.reg .rdi = BitVec.ofNat 64 (n + 1) := by
  have hedi : d.reg32 .rdi = BitVec.ofNat 32 (n + 2) := by
    rw [Data.reg32, hd, BitVec.setWidth_ofNat_of_le (by decide)]
  have hkeep : Keeps calleeSaved (d.reg .rsp) 8 d (d.setReg32 .rcx (d.reg32 .rdi)) :=
    (Keeps.refl _ _ _ d).setReg (by decide)
  refine ⟨_, hload.ops (i := 3) [.mov32 .rcx .rdi, .push .rcx, .dec64 .rdi] rfl d, ?_, ?_, ?_, ?_⟩
  · exact ((hkeep.push rsp_not_saved le_rfl (by simp)).setReg (by decide)).flags
  · simp [Op.run]
  · simp [Op.run, hedi, setWidth_ofNat hn]
  · simpa [Op.run, hd] using ofNat_sub_one n

/-- Between the calls: `n` comes off the stack, and the result of the first call goes there. -/
theorem fib_second (hload : Loaded code addr (fib addr)) (htop : d.top = BitVec.ofNat 64 (n + 2)) :
    ∃ e, Reaches (cycle code) ⟨addr 7, d⟩ ⟨addr 11, e⟩ ∧ Keeps calleeSaved (d.reg .rsp + 8) 8 d e ∧
      e.reg .rsp = d.reg .rsp ∧ e.top = d.reg .rax ∧ e.reg .rdi = BitVec.ofNat 64 n := by
  have hkeep : Keeps calleeSaved (d.reg .rsp + 8) 8 d
      ([Op.mov64 .rdx .rax, .pop .rcx, .lea .rdi ⟨.rcx, none, -2⟩].foldl Op.run d) :=
    ((((Keeps.refl _ _ _ d).setReg (by decide)).setReg (by decide)).setReg (by decide)).setReg (by decide)
  refine ⟨_, hload.ops (i := 7) [.mov64 .rdx .rax, .pop .rcx, .lea .rdi ⟨.rcx, none, -2⟩, .push .rdx] rfl d,
    ?_, ?_, ?_, ?_⟩
  · exact hkeep.push rsp_not_saved le_rfl (by simp [Op.run])
  · simp [Op.run]
  · simp [Op.run]
  · simpa [Op.run, htop, Data.address] using ofNat_sub_two n

/-- Behind the calls. -/
theorem fib_last (hload : Loaded code addr (fib addr)) :
    ∃ e, Reaches (cycle code) ⟨addr 12, d⟩ ⟨load64 d.mem (d.reg .rsp + 8), e⟩ ∧
      Keeps calleeSaved (d.reg .rsp + 8) 0 d e ∧ e.reg .rsp = d.reg .rsp + 8 + 8 ∧
      e.reg .rax = d.reg .rax + d.top := by
  have hops := hload.ops (i := 12) [.pop .rdx, .lea .rax ⟨.rax, some .rdx, 0⟩] rfl d
  have hret := hload.step (i := 14) rfl ([Op.pop .rdx, .lea .rax ⟨.rax, some .rdx, 0⟩].foldl Op.run d)
  refine ⟨_, hops.trans hret, ?_, ?_, ?_⟩
  · exact ((((Keeps.refl _ _ _ d).setReg (by decide)).setReg (by decide)).setReg (by decide)).setReg (by decide)
  · simp [Op.run]
  · simp [Op.run, Data.address]

/-- The rule of a call from within the routine. -/
theorem FibReturns.call (h : FibReturns code addr n) (hload : Loaded code addr (fib addr)) {i : ℕ}
    (hi : (fib addr)[i]? = some (.call (addr 0))) (hd : d.reg .rdi = BitVec.ofNat 64 n) :
    ∃ e, Reaches (cycle code) ⟨addr i, d⟩ ⟨addr (i + 1), e⟩ ∧
      Keeps calleeSaved (d.reg .rsp) (16 * (n - 1) + 8) d e ∧ e.reg .rsp = d.reg .rsp ∧
      e.reg .rax = BitVec.ofNat 64 (Nat.fib n) := by
  obtain ⟨e, hrun, hret, hrax⟩ := h (d.push (addr (i + 1))) (by rw [push_reg_ne _ _ _ (by decide), hd])
  rw [push_top] at hrun
  obtain ⟨hrsp, hkeep⟩ := hret.of_push rsp_not_saved
  exact ⟨e, (hload.step hi d).trans hrun, hkeep, hrsp, hrax⟩

theorem fibReturns_of_le_one (hload : Loaded code addr (fib addr)) (hn : n ≤ 1) : FibReturns code addr n := by
  intro d hd
  obtain ⟨e, hrun, hkeep, hrax⟩ := fib_compare hload (by omega) hd
  have hrsp : e.reg .rsp = d.reg .rsp := hkeep.saved .rsp (by decide)
  have htop : e.top = d.top := hkeep.top (by decide) hrsp
  rw [if_pos hn] at hrun
  have hret := hload.step (i := 14) rfl e
  rw [Instr.exec, htop] at hret
  have hfib : Nat.fib n = n := by
    rcases Nat.le_one_iff_eq_zero_or_eq_one.mp hn with rfl | rfl <;> rfl
  refine ⟨e.drop, hrun.trans hret, ⟨⟨?_, ?_⟩, ?_⟩, ?_⟩
  · exact fun r hr => (((hkeep.subset (by decide)).setReg rsp_not_saved).saved r hr)
  · exact fun a ha => hkeep.mem a fun hb => ha (hb.mono (Nat.zero_le _))
  · rw [drop_reg_rsp, hrsp]
  · rw [drop_reg_ne _ _ (by decide), hrax, hfib]

/-- Two calls later. -/
theorem fibReturns_add_two (hload : Loaded code addr (fib addr)) (hn : n + 2 < 2 ^ 31)
    (h1 : FibReturns code addr (n + 1)) (h0 : FibReturns code addr n) : FibReturns code addr (n + 2) := by
  intro d hd
  obtain ⟨d₁, hrun₁, hkeep₁, -⟩ := fib_compare hload hn hd
  rw [if_neg (by omega)] at hrun₁
  have hrsp₁ : d₁.reg .rsp = d.reg .rsp := hkeep₁.saved .rsp (by decide)
  obtain ⟨d₂, hrun₂, hkeep₂, hrsp₂, htop₂, hrdi₂⟩ :=
    fib_first hload hn ((hkeep₁.saved .rdi (by decide)).trans hd)
  obtain ⟨d₃, hrun₃, hkeep₃, hrsp₃, hrax₃⟩ := h1.call hload (i := 6) rfl hrdi₂
  obtain ⟨d₄, hrun₄, hkeep₄, hrsp₄, htop₄, hrdi₄⟩ :=
    fib_second hload ((hkeep₃.top (by omega) hrsp₃).trans htop₂)
  obtain ⟨d₅, hrun₅, hkeep₅, hrsp₅, hrax₅⟩ := h0.call hload (i := 11) rfl hrdi₄
  obtain ⟨d₆, hrun₆, hkeep₆, hrsp₆, hrax₆⟩ := fib_last (d := d₅) hload
  have htop₅ : d₅.top = d₄.top := hkeep₅.top (by omega) hrsp₅
  -- the stack pointer is back behind every call
  rw [hrsp₁] at hkeep₂ hrsp₂
  rw [hrsp₂] at hrsp₃ hkeep₃
  rw [hrsp₃] at hrsp₄
  rw [hrsp₃, BitVec.sub_add_cancel] at hkeep₄
  rw [hrsp₄] at hrsp₅ hkeep₅
  rw [hrsp₅, BitVec.sub_add_cancel] at hrun₆ hkeep₆ hrsp₆
  have hcalls : Keeps calleeSaved (d.reg .rsp) (16 * (n + 2 - 1)) d d₅ :=
    ((((hkeep₁.subset (by decide)).mono (Nat.zero_le _)).trans (hkeep₂.mono (by omega))).trans
      (hkeep₃.of_sub.mono (by omega))).trans ((hkeep₄.mono (by omega)).trans (hkeep₅.of_sub.mono (by omega)))
  rw [hcalls.load64 (by omega)] at hrun₆
  refine ⟨d₆, ?_, ⟨hcalls.trans (hkeep₆.mono (Nat.zero_le _)), hrsp₆⟩, ?_⟩
  · exact hrun₁.trans (hrun₂.trans (hrun₃.trans (hrun₄.trans (hrun₅.trans hrun₆))))
  · rw [hrax₆, hrax₅, htop₅, htop₄, hrax₃, ← BitVec.ofNat_add, Nat.fib_add_two]

theorem fibReturns (hload : Loaded code addr (fib addr)) (hn : n < 2 ^ 31) : FibReturns code addr n := by
  induction n using Nat.strong_induction_on with
  | _ n ih =>
    match n, hn, ih with
    | 0, _, _ => exact fibReturns_of_le_one hload (by decide)
    | 1, _, _ => exact fibReturns_of_le_one hload (by decide)
    | n + 2, hn, ih =>
      exact fibReturns_add_two hload hn (ih (n + 1) (by omega) (by omega)) (ih n (by omega) (by omega))

/-- With room for `n - 1` frames the routine comes back, with its result and with what its caller relies on. -/
theorem fib_returns (hload : Loaded code addr (fib addr)) (n : BitVec 32) (hn : 0 ≤ n.toInt) (d : Data)
    (hrdi : d.reg .rdi = n.setWidth 64) (hstack : 16 * (n.toNat - 1) ≤ (d.reg .rsp).toNat)
    (hcaller : code d.top = none) :
    ∃ d', Halts (cycle code) ⟨addr 0, d⟩ ⟨d.top, d'⟩ ∧ d'.reg .rax = BitVec.ofNat 64 (Nat.fib n.toNat) ∧
      d'.reg .rsp = d.reg .rsp + 8 ∧ (∀ a, d.reg .rsp ≤ a → d'.mem a = d.mem a) ∧
      ∀ r ∈ calleeSaved, d'.reg r = d.reg r := by
  have hlt : n.toNat < 2 ^ 31 := by
    rw [BitVec.toInt_eq_toNat_cond] at hn
    split_ifs at hn with h <;> omega
  have hrdi' : d.reg .rdi = BitVec.ofNat 64 n.toNat := by
    rw [hrdi, ← setWidth_ofNat hlt, BitVec.ofNat_toNat, BitVec.setWidth_eq]
  obtain ⟨d', hrun, hret, hrax⟩ := fibReturns hload hlt d hrdi'
  exact ⟨d', hrun.halts (halts_of_none hcaller), hrax, hret.rsp,
    fun a ha => hret.mem a (not_below_of_le hstack ha), hret.saved⟩

theorem fib_returns_two :
    ∃ d', Halts (cycle (place 4096 fib))
        ⟨4096, fun | .rdi => 2 | .rsp => 16 | _ => 0, false, false, false, fun _ => 0⟩ ⟨0, d'⟩ ∧ d'.reg .rax = 1 := by
  obtain ⟨d', hrun, hrax, -⟩ := fib_returns (loaded_place 4096 (by decide)) 2 (by decide)
    ⟨fun | .rdi => 2 | .rsp => 16 | _ => 0, false, false, false, fun _ => 0⟩ rfl (by decide) rfl
  exact ⟨d', hrun, hrax⟩

end Fib

end Csapp.Asm
