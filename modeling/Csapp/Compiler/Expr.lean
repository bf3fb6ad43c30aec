import Csapp.Compiler.Scope

/-!
# Compiler.Expr — an expression compiled on its own

`evalExpr` gives text for an expression exactly when its literals are in the range of `int`, given that its
variables have addresses (`litsFit_of_evalExpr`).  The bytes that the assembler makes of that text compute the
expression wherever they are loaded (`evalExpr_computes`): code, variables and stack are cells of one memory,
and nothing but the cells of the operand stack is written.
-/

namespace Csapp.Compiler

open Csapp.Lib

/-- A literal out of range is an error of `strconv.Atoi`, which every expression around it passes on. -/
theorem SExpr.litsFit_of_evalExpr {T : Table} (e : SExpr) :
    ∀ {asm : Text}, evalExpr T e.node = .ok asm → e.LitsFit := by
  induction e with
  | lit n =>
    intro asm h
    by_contra hn
    simp only [SExpr.node, evalExpr, atoi_itoa_of_le (Nat.not_lt.mp hn)] at h
    cases h
  | var z => exact fun _ => trivial
  | bin l op r ihl ihr =>
    intro asm h
    rw [SExpr.node, evalExpr] at h
    cases hl : evalExpr T l.node with
    | error err =>
      rw [hl] at h
      cases h
    | ok left =>
      cases hr : evalExpr T r.node with
      | error err =>
        rw [hl, hr] at h
        cases h
      | ok right => exact ⟨ihl hl, ihr hr⟩
  | paren e ih => exact ih

theorem SExpr.codeAt_ne_nil (loc : Text → ℕ) (e : SExpr) : e.codeAt loc ≠ [] := by
  induction e with
  | lit n => exact List.cons_ne_nil _ _
  | var z => exact List.cons_ne_nil _ _
  | bin l op r ihl ihr => exact List.append_ne_nil_of_right_ne_nil _ (List.cons_ne_nil _ _)
  | paren e ih => exact ih

theorem SExpr.codeAt_inRange {loc : Text → ℕ} (e : SExpr) (h : ∀ z, .read z ∈ e.accesses → loc z < 2 ^ 63) :
    ∀ i ∈ e.codeAt loc, i.InRange := by
  induction e with
  | lit n =>
    intro i hi
    rw [List.mem_singleton.mp hi]
    trivial
  | var z =>
    intro i hi
    rw [List.mem_singleton.mp hi]
    exact h z List.mem_cons_self
  | bin l op r ihl ihr =>
    intro i hi
    rcases List.mem_append.mp hi with hi | hi
    · rcases List.mem_append.mp hi with hi | hi
      · exact ihl (fun z hz => h z (List.mem_append_left _ hz)) i hi
      · exact ihr (fun z hz => h z (List.mem_append_right _ hz)) i hi
    · rw [List.mem_singleton.mp hi]
      trivial
  | paren e ih => exact ih h

/-- **Expressions are compiled correctly**, whatever table gives their variables their addresses and wherever
the code is loaded, as long as the `e.depth` stack cells from `sp` down hold neither the code nor a variable of
the expression: the code runs from its first byte to the end of its last one, leaves the value of the
expression on the stack and writes nothing but those cells. -/
theorem evalExpr_computes (T : Table) (loc : Text → ℕ) (e : SExpr)
    (hvars : ∀ z, .read z ∈ e.accesses → T.varToMem z = some (loc z) ∧ loc z < 2 ^ 63) :
    ((∃ asm, evalExpr T e.node = .ok asm) ↔ e.LitsFit) ∧
    ∀ asm, evalExpr T e.node = .ok asm → ∃ bytecode, assemble asm = some (.ok bytecode) ∧
      ∀ (pc sp : UInt8) (m : Memory), LoadedAt pc bytecode m →
        (∀ k < bytecode.length, ¬ StackCell sp e.depth (pc + UInt8.ofNat k)) →
        (∀ z, .read z ∈ e.accesses → ¬ StackCell sp e.depth (UInt8.ofNat (loc z))) →
        ∀ v, e.eval (fun z => m (UInt8.ofNat (loc z))) = some v →
          ∃ m', Reaches cycle ⟨pc, sp, m, none⟩ ⟨pc + UInt8.ofNat bytecode.length, sp - 1, m', none⟩ ∧
            m' sp = v ∧ ∀ a, ¬ StackCell sp e.depth a → m' a = m a := by
  have htext : e.LitsFit → evalExpr T e.node = .ok (render (e.codeAt loc)) :=
    fun hlit => evalExpr_codeAt e hlit fun z hz => (hvars z hz).1
  refine ⟨⟨?_, fun hlit => ⟨_, htext hlit⟩⟩, fun asm hasm => ?_⟩
  · rintro ⟨asm, hasm⟩
    exact e.litsFit_of_evalExpr hasm
  · have heq : asm = render (e.codeAt loc) :=
      Except.ok.inj (hasm.symm.trans (htext (e.litsFit_of_evalExpr hasm)))
    refine ⟨bytes (labelsOf (e.codeAt loc)) (e.codeAt loc), ?_, ?_⟩
    · rw [heq]
      exact assemble_render (e.codeAt_ne_nil loc) (e.codeAt_inRange fun z hz => (hvars z hz).2)
    · intro pc sp m hloaded hcode hroom v hv
      have hpush := e.execAt ⟨hloaded, fun z _ => rfl, hcode, hroom⟩
      rw [hv] at hpush
      rw [length_bytes]
      exact hpush

/-- `x + 2 * y` in `runVM`, called with 3 and 4. -/
theorem evalExpr_computes_sample :
    let e : SExpr := .bin (.var nameX) .add (.bin (.lit 2) .mul (.var nameY))
    let m := loadMemory [0x01, 1, 0x02, 2, 0x01, 2, 0x12, 0x10] 3 4
    evalExpr (tableOf []) e.node = .ok (render (e.codeAt (addr []))) ∧
      ∃ m', Reaches cycle ⟨0x08, 0xff, m, none⟩ ⟨0x10, 0xfe, m', none⟩ ∧ m' 0xff = 11 ∧
        ∀ a, ¬ StackCell 0xff 3 a → m' a = m a := by
  intro e m
  have hreads : ∀ z, .read z ∈ e.accesses → z = nameX ∨ z = nameY := by
    intro z hz
    simpa [e, SExpr.accesses] using hz
  have hvars : ∀ z, .read z ∈ e.accesses →
      (tableOf []).varToMem z = some (addr [] z) ∧ addr [] z < 2 ^ 63 := by
    intro z hz
    rcases hreads z hz with rfl | rfl
    · exact ⟨rfl, by decide⟩
    · exact ⟨rfl, by decide⟩
  have htwo : 2 < 2 ^ 63 := by decide
  have hlit : e.LitsFit := ⟨trivial, htwo, trivial⟩
  have htext : evalExpr (tableOf []) e.node = .ok (render (e.codeAt (addr []))) :=
    evalExpr_codeAt e hlit fun z hz => (hvars z hz).1
  obtain ⟨bytecode, hasm, hrun⟩ := (evalExpr_computes (tableOf []) (addr []) e hvars).2 _ htext
  have heq : bytecode = [0x01, 1, 0x02, 2, 0x01, 2, 0x12, 0x10] :=
    Except.ok.inj (Option.some.inj (hasm.symm.trans
      (assemble_render (e.codeAt_ne_nil _) (e.codeAt_inRange fun z hz => (hvars z hz).2))))
  subst heq
  have hroom : ∀ z, .read z ∈ e.accesses → ¬ StackCell 0xff e.depth (UInt8.ofNat (addr [] z)) := by
    intro z hz
    rcases hreads z hz with rfl | rfl
    · exact (not_stackCell_iff (by decide)).mpr (by decide)
    · exact (not_stackCell_iff (by decide)).mpr (by decide)
  have hloaded : LoadedAt 0x08 [0x01, 1, 0x02, 2, 0x01, 2, 0x12, 0x10] m :=
    (ready_start (by decide) (by decide) 3 4 : Ready _ [] 0 _ _).loaded
  have hcode : ∀ k < [0x01, 1, 0x02, 2, 0x01, 2, 0x12, (0x10 : UInt8)].length,
      ¬ StackCell 0xff e.depth (0x08 + UInt8.ofNat k) :=
    fun k hk => (not_stackCell_iff (by decide)).mpr (.inl (by revert k; decide))
  exact ⟨htext, hrun 0x08 0xff m hloaded hcode hroom 11 (by decide)⟩

end Csapp.Compiler
