import Csapp.Lib.CString
import Csapp.Lib.X86

/-!
# Asm.Pangram — the pangram routine

The routine has a bit for each letter in `edx`.  Other bytes are not filtered: `bts` takes its index modulo 32, so
every byte sets the bit of the letter of its residue.
-/

namespace Csapp.Asm

open Csapp.Lib Csapp.Lib.X86

/-- `pangram`; instruction 1 is `.loop`, and 9 is `.end`. -/
def pangram (addr : ℕ → Word) : List Instr := [
  .op (.xor32 .rdx .rdx),
  .op (.movzx8 .rcx ⟨.rdi, none, 0⟩),
  .op (.cmp32 .rcx 0),
  .je (addr 9),
  .op (.or32 .rcx 32),
  .op (.sub32 .rcx 97),
  .op (.bts32 .rdx .rcx),
  .op (.inc64 .rdi),
  .jmp (addr 1),
  .op (.xor32 .rax .rax),
  .op (.and32 .rdx 0x03ffffff),
  .op (.cmp32 .rdx 0x03ffffff),
  .op (.sete .rax),
  .ret]

/-! ## The letter bits -/

/-- The index that `bts` gets for a byte, modulo 32. -/
def bitIndex (c : UInt8) : ℕ := ((c.toBitVec.setWidth 32 ||| 32) - 97 : BitVec 32).toNat % 32

/-- The bits that are set after the bytes of a string. -/
def letterBits (mask : BitVec 32) (s : List UInt8) : BitVec 32 :=
  s.foldl (fun mask c => mask ||| BitVec.twoPow 32 (bitIndex c)) mask

/-- The string has every letter, in upper or in lower case. -/
def IsPangram (s : List UInt8) : Prop := ∀ i < 26, UInt8.ofNat (65 + i) ∈ s ∨ UInt8.ofNat (97 + i) ∈ s

instance (s : List UInt8) : Decidable (IsPangram s) := inferInstanceAs (Decidable (∀ i < 26, _ ∨ _))

/-- Every residue of a letter modulo 32 is that of a byte. -/
def AllHit (s : List UInt8) : Prop := ∀ i < 26, ∃ c ∈ s, c.toNat % 32 = i + 1

instance (s : List UInt8) : Decidable (AllHit s) := inferInstanceAs (Decidable (∀ i < 26, _))

theorem bitIndex_eq (c : UInt8) : bitIndex c = (c.toNat + 31) % 32 := by
  have hc := c.toNat_lt
  have hor : (c.toBitVec.setWidth 32 ||| 32).toNat = c.toNat ||| 32 := by
    rw [BitVec.toNat_or, BitVec.toNat_setWidth_of_le (by decide)]
    rfl
  have hlow : (c.toNat ||| 32) % 32 = c.toNat % 32 := by
    have h := Nat.or_mod_two_pow (a := c.toNat) (b := 32) (n := 5)
    rwa [show 32 % 2 ^ 5 = 0 from rfl, Nat.or_zero] at h
  rw [bitIndex, BitVec.toNat_sub, hor]
  simp only [BitVec.reduceToNat]
  omega

theorem bitIndex_lt (c : UInt8) : bitIndex c < 32 := Nat.mod_lt _ (by decide)

theorem bitIndex_eq_iff {c : UInt8} {i : ℕ} (hi : i < 26) : bitIndex c = i ↔ c.toNat % 32 = i + 1 := by
  rw [bitIndex_eq]
  omega

theorem getLsbD_letterBits (mask : BitVec 32) (s : List UInt8) (i : ℕ) (hi : i < 32) :
    (letterBits mask s).getLsbD i = true ↔ mask.getLsbD i = true ∨ ∃ c ∈ s, bitIndex c = i := by
  induction s generalizing mask with
  | nil => simp [letterBits]
  | cons c s ih =>
    have hstep : letterBits mask (c :: s) = letterBits (mask ||| BitVec.twoPow 32 (bitIndex c)) s := rfl
    rw [hstep, ih, BitVec.getLsbD_or, BitVec.getLsbD_twoPow, Bool.or_eq_true, or_assoc]
    simp [hi, bitIndex_lt]

theorem getLsbD_letterMask (i : ℕ) : (0x03ffffff : BitVec 32).getLsbD i = decide (i < 26) := by
  have hmask : (0x03ffffff : BitVec 32) = (BitVec.allOnes 26).setWidth 32 := rfl
  rw [hmask, BitVec.getLsbD_setWidth, BitVec.getLsbD_allOnes, ← Bool.decide_and]
  exact decide_eq_decide.mpr ⟨fun h => h.2, fun h => ⟨by omega, h⟩⟩

/-- The test at the end. -/
theorem letterBits_full_iff (s : List UInt8) :
    letterBits 0 s &&& 0x03ffffff = 0x03ffffff ↔ AllHit s := by
  have hbit : ∀ i < 26, (letterBits 0 s).getLsbD i = true ↔ ∃ c ∈ s, c.toNat % 32 = i + 1 := by
    intro i hi
    have hzero : (0 : BitVec 32).getLsbD i = false := BitVec.getLsbD_zero
    rw [getLsbD_letterBits 0 s i (by omega), hzero]
    simp only [Bool.false_eq_true, false_or, bitIndex_eq_iff hi]
  constructor
  · intro h i hi
    have hi' := congrArg (fun v => v.getLsbD i) h
    simp only [BitVec.getLsbD_and, getLsbD_letterMask, hi, decide_true, Bool.and_true] at hi'
    exact (hbit i hi).mp hi'
  · intro h
    apply BitVec.eq_of_getLsbD_eq
    intro i _
    rw [BitVec.getLsbD_and, getLsbD_letterMask]
    by_cases hi : i < 26
    · rw [(hbit i hi).mpr (h i hi), Bool.true_and]
    · rw [decide_eq_false hi, Bool.and_false]

/-- A letter hits its residue in either case. -/
theorem IsPangram.allHit {s : List UInt8} (h : IsPangram s) : AllHit s := by
  intro i hi
  rcases h i hi with hc | hc
  · exact ⟨_, hc, by rw [UInt8.toNat_ofNat']; omega⟩
  · exact ⟨_, hc, by rw [UInt8.toNat_ofNat']; omega⟩

/-! ## The run -/

/-- The bytes stand in memory, one behind the other. -/
def Holds (mem : Word → UInt8) (p : Word) (s : List UInt8) : Prop :=
  ∀ i (h : i < s.length), mem (p + BitVec.ofNat 64 i) = s[i]

instance (mem : Word → UInt8) (p : Word) (s : List UInt8) : Decidable (Holds mem p s) :=
  inferInstanceAs (Decidable (∀ i (_ : i < s.length), _))

section Holds

variable {mem : Word → UInt8} {p : Word} {c : UInt8} {s : List UInt8}

theorem Holds.head (h : Holds mem p (c :: s)) : mem p = c := by
  have h0 := h 0 (Nat.succ_pos _)
  rwa [BitVec.add_zero] at h0

theorem Holds.tail (h : Holds mem p (c :: s)) : Holds mem (p + 1) s := by
  intro i hi
  have hi' := h (i + 1) (Nat.succ_lt_succ hi)
  rwa [add_ofNat_succ] at hi'

theorem holds_getD (hs : s.length ≤ 2 ^ 64) : Holds (fun a => s[a.toNat]?.getD 0) 0 s := by
  intro i hi
  have ha : (0 + BitVec.ofNat 64 i : Word).toNat = i := by
    rw [BitVec.toNat_add, BitVec.toNat_ofNat, Nat.mod_eq_of_lt (hi.trans_le hs)]
    exact (congrArg (· % 2 ^ 64) (Nat.zero_add i)).trans (Nat.mod_eq_of_lt (hi.trans_le hs))
  exact (congrArg (fun k => s[k]?.getD 0) ha).trans (by rw [List.getElem?_eq_getElem hi, Option.getD_some])

end Holds

section Run

variable {code : Code} {addr : ℕ → Word} {d : Data} {mask : BitVec 32}

theorem setWidth_eq_zero_iff (c : UInt8) : c.toBitVec.setWidth 32 - 0#32 = 0#32 ↔ c = 0 := by
  rw [BitVec.sub_zero, ← BitVec.toNat_inj, BitVec.toNat_setWidth_of_le (by decide)]
  exact UInt8.toNat_inj (b := 0)

/-- Reading a byte, and the test for the end. -/
theorem pangram_read (hload : Loaded code addr (pangram addr)) (d : Data) :
    ∃ e, Reaches (cycle code) ⟨addr 1, d⟩ ⟨if d.mem (d.reg .rdi) = 0 then addr 9 else addr 4, e⟩ ∧
      e.mem = d.mem ∧ e.reg .rsp = d.reg .rsp ∧ e.reg .rdi = d.reg .rdi ∧ e.reg32 .rdx = d.reg32 .rdx ∧
      e.reg32 .rcx = (d.mem (d.reg .rdi)).toBitVec.setWidth 32 := by
  have hops := hload.ops (i := 1) [.movzx8 .rcx ⟨.rdi, none, 0⟩, .cmp32 .rcx 0] rfl d
  have haddr : d.address ⟨.rdi, none, 0#64⟩ = d.reg .rdi := by simp [Data.address]
  refine ⟨_, hops.trans (hload.je rfl ?_), ?_, ?_, ?_, ?_, ?_⟩
  · refine beq_iff_eq.trans ?_
    rw [← setWidth_eq_zero_iff]
    simp [Op.run, haddr]
  · simp [Op.run]
  · simp [Op.run]
  · simp [Op.run]
  · simp [Op.run]
  · simp [Op.run, haddr]

/-- A byte sets its bit. -/
theorem pangram_set (hload : Loaded code addr (pangram addr)) {d : Data} {c : UInt8}
    (hc : d.reg32 .rcx = c.toBitVec.setWidth 32) :
    ∃ e, Reaches (cycle code) ⟨addr 4, d⟩ ⟨addr 1, e⟩ ∧ e.mem = d.mem ∧ e.reg .rsp = d.reg .rsp ∧
      e.reg .rdi = d.reg .rdi + 1 ∧ e.reg32 .rdx = d.reg32 .rdx ||| BitVec.twoPow 32 (bitIndex c) := by
  have hops := hload.ops (i := 4) [.or32 .rcx 32, .sub32 .rcx 97, .bts32 .rdx .rcx, .inc64 .rdi] rfl d
  refine ⟨_, hops.trans (hload.step (i := 8) rfl _), ?_, ?_, ?_, ?_⟩
  · simp [Op.run]
  · simp [Op.run]
  · simp [Op.run]
  · simp [Op.run, hc, bitIndex]

/-- The loop runs to the end of the string. -/
theorem pangram_loop (hload : Loaded code addr (pangram addr)) (s : CStr) :
    ∀ d : Data, Holds d.mem (d.reg .rdi) s.cells →
      ∃ e, Reaches (cycle code) ⟨addr 1, d⟩ ⟨addr 9, e⟩ ∧ e.mem = d.mem ∧ e.reg .rsp = d.reg .rsp ∧
        e.reg32 .rdx = letterBits (d.reg32 .rdx) s.bytes := by
  induction s using CStr.inductionOn with
  | nil s hb hc =>
    intro d hd
    rw [hc] at hd
    obtain ⟨e, hrun, hmem, hrsp, -, hrdx, -⟩ := pangram_read hload d
    rw [if_pos hd.head] at hrun
    exact ⟨e, hrun, hmem, hrsp, by rw [hb, hrdx, letterBits, List.foldl_nil]⟩
  | cons s c t hc0 hb hc ih =>
    intro d hd
    rw [hc] at hd
    obtain ⟨d₁, hrun₁, hmem₁, hrsp₁, hrdi₁, hrdx₁, hrcx₁⟩ := pangram_read hload d
    rw [hd.head] at hrun₁ hrcx₁
    rw [if_neg hc0] at hrun₁
    obtain ⟨d₂, hrun₂, hmem₂, hrsp₂, hrdi₂, hrdx₂⟩ := pangram_set hload hrcx₁
    have htail : Holds d₂.mem (d₂.reg .rdi) t.cells := by
      rw [hmem₂, hmem₁, hrdi₂, hrdi₁]
      exact hd.tail
    obtain ⟨e, hrun, hmem, hrsp, hrdx⟩ := ih d₂ htail
    refine ⟨e, hrun₁.trans (hrun₂.trans hrun), ?_, ?_, ?_⟩
    · rw [hmem, hmem₂, hmem₁]
    · rw [hrsp, hrsp₂, hrsp₁]
    · rw [hrdx, hrdx₂, hrdx₁, hb, letterBits, letterBits, List.foldl_cons]

/-- Behind the loop. -/
theorem pangram_end (hload : Loaded code addr (pangram addr)) (d : Data) :
    ∃ e, Reaches (cycle code) ⟨addr 9, d⟩ ⟨d.top, e⟩ ∧
      e.reg .rax = if d.reg32 .rdx &&& 0x03ffffff = 0x03ffffff then 1 else 0 := by
  have hops := hload.ops (i := 9) [.xor32 .rax .rax, .and32 .rdx 0x03ffffff, .cmp32 .rdx 0x03ffffff, .sete .rax] rfl d
  have hret := hload.step (i := 13) rfl ([Op.xor32 .rax .rax, .and32 .rdx 0x03ffffff, .cmp32 .rdx 0x03ffffff,
    .sete .rax].foldl Op.run d)
  refine ⟨_, hops.trans hret, ?_⟩
  simp [Op.run, sub_eq_zero_iff]

/-- The routine comes back, with the result of its own test. -/
theorem pangram_halts (hload : Loaded code addr (pangram addr)) (hcaller : code d.top = none) {s : CStr}
    (hs : Holds d.mem (d.reg .rdi) s.cells) :
    ∃ d', Halts (cycle code) ⟨addr 0, d⟩ ⟨d.top, d'⟩ ∧ d'.reg .rax = if AllHit s.bytes then 1 else 0 := by
  have hclear := hload.ops (i := 0) [.xor32 .rdx .rdx] rfl d
  obtain ⟨d₁, hrun₁, hmem₁, hrsp₁, hrdx₁⟩ := pangram_loop hload s (Op.run d (.xor32 .rdx .rdx)) hs
  have hzero : (Op.run d (.xor32 .rdx .rdx)).reg32 .rdx = 0 := by simp [Op.run]
  have htop : d₁.top = d.top := by
    rw [Data.top, hmem₁, hrsp₁]
    rfl
  obtain ⟨d₂, hrun₂, hrax⟩ := pangram_end hload d₁
  rw [htop] at hrun₂
  rw [hrdx₁, hzero, if_congr (letterBits_full_iff s.bytes) rfl rfl] at hrax
  exact ⟨d₂, (hclear.trans (hrun₁.trans hrun₂)).halts (halts_of_none hcaller), hrax⟩

/-- Right is what comes back for a pangram, and for a string that leaves the residue of some letter out. -/
theorem pangram_iff (hload : Loaded code addr (pangram addr)) (hcaller : code d.top = none) (s : CStr)
    (hs : Holds d.mem (d.reg .rdi) s.cells) :
    (∃ d', Halts (cycle code) ⟨addr 0, d⟩ ⟨d.top, d'⟩ ∧ d'.reg .rax = if IsPangram s.bytes then 1 else 0) ↔
      IsPangram s.bytes ∨ ¬AllHit s.bytes := by
  obtain ⟨d₁, hrun₁, hrax₁⟩ := pangram_halts hload hcaller hs
  constructor
  · rintro ⟨d₂, hrun₂, hrax₂⟩
    by_cases hp : IsPangram s.bytes
    · exact Or.inl hp
    · refine Or.inr fun hall => ?_
      have heq := hrun₁.unique hrun₂
      rw [if_pos hall] at hrax₁
      rw [← (State.mk.inj heq).2, hrax₁, if_neg hp] at hrax₂
      exact absurd hrax₂ (by decide)
  · intro h
    have hiff : AllHit s.bytes ↔ IsPangram s.bytes :=
      ⟨fun hall => h.resolve_right (not_not.mpr hall), IsPangram.allHit⟩
    exact ⟨d₁, hrun₁, hrax₁.trans (if_congr hiff rfl rfl)⟩

end Run

/-- A call with the string `s`, which stands at 0. -/
def callWith (s : List UInt8) : Data where
  reg := fun r => if r = .rsp then 100 else 0
  zf := false
  sf := false
  ovf := false
  mem := fun a => (s ++ [0])[a.toNat]?.getD 0

theorem holds_callWith {s : List UInt8} (hs : s.length < 2 ^ 64) :
    Holds (callWith s).mem ((callWith s).reg .rdi) (s ++ [0]) := by
  refine holds_getD ?_
  rw [List.length_append, List.length_singleton]
  exact hs

def foxText : CStr := ⟨"The quick brown fox (No. 7) jumps over the lazy dog!".toList.map fun c => UInt8.ofNat c.toNat,
  by decide +kernel⟩

def helloText : CStr := ⟨"Hello, world!".toList.map fun c => UInt8.ofNat c.toNat, by decide +kernel⟩

/-- The first text is a pangram and the second is not. -/
theorem pangram_iff_sample :
    (∃ d', Halts (cycle (place 4096 pangram)) ⟨4096, callWith foxText.bytes⟩ ⟨0, d'⟩ ∧ d'.reg .rax = 1) ∧
      ∃ d', Halts (cycle (place 4096 pangram)) ⟨4096, callWith helloText.bytes⟩ ⟨0, d'⟩ ∧ d'.reg .rax = 0 := by
  have hload := loaded_place 4096 (show 4096 + (pangram _).length ≤ 2 ^ 64 by decide)
  have hfox : IsPangram foxText.bytes := by decide +kernel
  have hhello : ¬AllHit helloText.bytes := by decide +kernel
  have htop : (callWith foxText.bytes).top = 0 := by decide +kernel
  have htop' : (callWith helloText.bytes).top = 0 := by decide +kernel
  constructor
  · obtain ⟨d', hrun, hrax⟩ := (pangram_iff hload (by rw [htop]; rfl) foxText
      (holds_callWith (by decide +kernel))).mpr (Or.inl hfox)
    rw [if_pos hfox] at hrax
    exact ⟨d', htop ▸ hrun, hrax⟩
  · obtain ⟨d', hrun, hrax⟩ := (pangram_iff hload (by rw [htop']; rfl) helloText
      (holds_callWith (by decide +kernel))).mpr (Or.inr hhello)
    rw [if_neg fun h => hhello (IsPangram.allHit h)] at hrax
    exact ⟨d', htop' ▸ hrun, hrax⟩

/-- The bytes from `!` to `:`, punctuation and digits alone. -/
def punctuation : List UInt8 := (List.range 26).map fun i => UInt8.ofNat (33 + i)

/-- They hit every letter bit. -/
theorem punctuation_is_accepted :
    ¬∀ (code : Code) (addr : ℕ → Word) (d : Data) (s : CStr), Loaded code addr (pangram addr) →
      code d.top = none → Holds d.mem (d.reg .rdi) s.cells →
        ∃ d', Halts (cycle code) ⟨addr 0, d⟩ ⟨d.top, d'⟩ ∧
          d'.reg .rax = if IsPangram s.bytes then 1 else 0 := by
  intro h
  obtain ⟨s, hs⟩ : ∃ s : CStr, s.bytes = punctuation := ⟨⟨punctuation, by decide⟩, rfl⟩
  have hholds : Holds (callWith punctuation).mem ((callWith punctuation).reg .rdi) s.cells := by
    rw [CStr.cells, hs]
    exact holds_callWith (by decide)
  have hload := loaded_place 4096 (show 4096 + (pangram _).length ≤ 2 ^ 64 by decide)
  have hcaller : place 4096 pangram (callWith punctuation).top = none := rfl
  obtain ⟨d₁, hrun₁, hrax₁⟩ := pangram_halts hload hcaller hholds
  obtain ⟨d₂, hrun₂, hrax₂⟩ := h _ _ _ s hload hcaller hholds
  rw [hs, if_pos (by decide)] at hrax₁
  rw [← (State.mk.inj (hrun₁.unique hrun₂)).2, hrax₁, hs, if_neg (by decide)] at hrax₂
  exact absurd hrax₂ (by decide)

end Csapp.Asm
