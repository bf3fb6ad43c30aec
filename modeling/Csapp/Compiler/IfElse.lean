import Csapp.Compiler.Scope

/-!
# Compiler.IfElse — the compiler on bodies with a conditional

The code of the `then` block is followed by the code of the `else` block, with no jump between them, and a
name has one address in the whole body.  So the machine runs the blocks on one store, and the `else` block
after a `then` block that does not return (`Branch.runThrough`).  Whether it returns the value of the body is
decided by what this does to the rest of the body (`compile_if_iff`).
-/

namespace Csapp.Compiler

open Csapp.Lib

/-! ## The conditional as the machine runs it -/

/-- From a `then` block on into the `else` block, with one variable for a name. -/
def Branch.runThrough (b : Branch) (σ : Store) : Flow :=
  b.cond.bind σ fun c =>
    if c = 0 then runActions (b.els.getD []) σ
    else (runActions b.body σ).bind (runActions (b.els.getD []))

def runBranchThrough (branch : Option Branch) (σ : Store) : Flow :=
  match branch with
  | none => .next σ
  | some b => b.runThrough σ

def IfProgram.runThrough (p : IfProgram) (x y : UInt8) : Flow :=
  (runActions p.before (Store.start x y)).bind fun σ =>
    (runBranchThrough p.branch σ).bind (runActions (p.after ++ [.ret p.result]))

section Branch

variable {names : List Text} (hn : names.length ≤ 5) {labels : Label → UInt8} {code : List UInt8}
include hn

theorem branch_exec {b : Branch} {k : ℕ} {σ : Store} {s : State} (hs : Ready code names k σ s)
    (hat : At code k (bytes labels (branchCode names (some b))))
    (hl : labels .l2 = codeAddr (k + size (b.cond.code names) + 2 + size (actionsCode names b.body)))
    (hc : Covers names (branchAccesses (some b)))
    (hroom : 8 + code.length + branchDepth (some b) ≤ 256) :
    Leads code names (k + size (branchCode names (some b))) s (b.runThrough σ) := by
  obtain ⟨hcc, hcb⟩ := covers_append.mp hc
  obtain ⟨hcb, hce⟩ := covers_append.mp hcb
  have hd : branchDepth (some b) =
    max b.cond.depth (max (actionsDepth b.body) (actionsDepth (b.els.getD []))) := rfl
  have hj : size [Instr.jeqz .l2, .label .l1] = 2 := rfl
  have hlb : size [Instr.label .l2] = 0 := rfl
  have hsize : k + size (branchCode names (some b)) = k + size (b.cond.code names) + 2 +
      size (actionsCode names b.body) + size (actionsCode names (b.els.getD [])) := by
    simp only [branchCode, size_append, hj, hlb]
    omega
  simp only [branchCode, bytes_append] at hat
  obtain ⟨hat, hatels⟩ := hat.append
  obtain ⟨hat, -⟩ := hat.append
  obtain ⟨hat, hatbody⟩ := hat.append
  obtain ⟨hatcond, hatjeqz⟩ := hat.append
  simp only [List.length_append, length_bytes, hj, hlb, Nat.add_zero, ← Nat.add_assoc] at hatjeqz hatbody hatels
  have hpush := hs.pushes hn hatcond hcc (by omega)
  rw [hsize, Branch.runThrough, SExpr.bind]
  cases hv : b.cond.eval σ with
  | none =>
    rw [hv] at hpush
    rw [hs.eq]
    exact hpush
  | some c =>
    rw [hv] at hpush
    obtain ⟨m, hreach, hm, hf⟩ := hpush
    rw [← hs.eq] at hreach
    have hl₀ := hf.loaded (by omega) hs.loaded
    have hjeqz : At code (k + size (b.cond.code names)) [opJeqz, labels .l2] := hatjeqz
    have hstep := hreach.trans (Reaches.step (cycle_jeqz hl₀ hjeqz))
    rw [show m (0xff - 1 + 1) = c from hm] at hstep
    have hready : ∀ k', Ready code names k' σ ⟨codeAddr k', 0xff, m, none⟩ := fun k' =>
      ⟨rfl, rfl, rfl, hl₀, hf.holds hn hs.holds⟩
    by_cases h0 : c = 0
    · rw [if_pos h0, hl] at hstep
      simp only [if_pos h0]
      exact (runActions_exec hn (hready _) hatels hce (by omega)).of_reaches hstep
    · rw [if_neg h0] at hstep
      simp only [if_neg h0]
      have hbody := runActions_exec hn (hready _) hatbody hcb (by omega)
      exact (hbody.of_reaches hstep).bind fun σ' s' hs' => runActions_exec hn hs' hatels hce (by omega)

end Branch

/-! ## Whole bodies -/

namespace IfProgram

variable {p : IfProgram} {names : List Text}

theorem inRange_code (hn : names.length ≤ 5) : ∀ i ∈ p.code names, i.InRange := by
  rw [code, List.forall_mem_append, List.forall_mem_append]
  refine ⟨inRange_actionsCode hn _, ?_, inRange_actionsCode hn _⟩
  match p.branch with
  | none => exact List.forall_mem_nil _
  | some b =>
    have hctl : ∀ i ∈ [Instr.jeqz .l2, .label .l1], i.InRange := by simp [Instr.InRange]
    simp only [branchCode, List.forall_mem_append]
    exact ⟨⟨⟨⟨b.cond.inRange_code hn, hctl⟩, inRange_actionsCode hn b.body⟩, by simp [Instr.InRange]⟩,
      inRange_actionsCode hn _⟩

theorem code_ne_nil : p.code names ≠ [] := by
  intro h
  have : (Instr.halt : Instr) ∈ p.code names := by simp [code, actionsCode, Action.code]
  rw [h] at this
  cases this

theorem label_code {b : Branch} (hb : p.branch = some b) : labelsOf (p.code names) .l2 =
    codeAddr (size (actionsCode names p.before) + size (b.cond.code names) + 2 +
      size (actionsCode names b.body)) := by
  have hcode : p.code names = (actionsCode names p.before ++ b.cond.code names ++ [.jeqz .l2, .label .l1] ++
      actionsCode names b.body) ++ .label .l2 :: (actionsCode names (b.els.getD []) ++
        actionsCode names (p.after ++ [.ret p.result])) := by
    simp [code, hb, branchCode]
  rw [hcode, labelsOf_append ((noLabel_actionsCode .l2 _).append (noLabel_actionsCode .l2 _))]
  simp only [size_append]
  rfl

/-- The machine on a whole body. -/
theorem runThrough_exec (hs : p.AssignedBefore) (hn : p.locals.length ≤ 5) {code : List UInt8}
    {labels : Label → UInt8} (hcode : code = bytes labels (p.code p.locals))
    (hlabel : labels .l2 = labelsOf (p.code p.locals) .l2)
    (hfit : 8 + code.length + p.depth ≤ 256) (x y : UInt8) :
    ∃ k, Leads code p.locals k (startState code x y) (p.runThrough x y) := by
  have hcov : Covers p.locals p.accesses := covers_of_assignedBefore hs
  obtain ⟨hcovb, hcov⟩ := covers_append.mp hcov
  obtain ⟨hcovif, hcovt⟩ := covers_append.mp hcov
  have hdepth : p.depth = max (actionsDepth p.before)
    (max (branchDepth p.branch) (actionsDepth (p.after ++ [.ret p.result]))) := rfl
  have hat : At code 0 (bytes labels (p.code p.locals)) := ⟨[], by simp [hcode]⟩
  rw [IfProgram.code, bytes_append, bytes_append] at hat
  obtain ⟨hatb, hat⟩ := hat.append
  obtain ⟨hatif, hattail⟩ := hat.append
  rw [length_bytes] at hatif hattail
  rw [length_bytes] at hattail
  refine ⟨_, (runActions_exec hn (ready_start (by omega) hn x y) hatb hcovb (by omega)).bind
    fun σ s hready => Leads.bind ?_ fun σ' s' hready' => runActions_exec hn hready' hattail hcovt (by omega)⟩
  match hb : p.branch with
  | none => exact ⟨s, Reaches.refl cycle s, hready⟩
  | some b =>
    rw [hb] at hatif hdepth hcovif
    refine branch_exec hn hready hatif ?_ hcovif (by omega)
    rw [hlabel, label_code hb, Nat.zero_add]

theorem runActions_ret_ne_next (as : List Action) (e : SExpr) (σ σ' : Store) :
    runActions (as ++ [.ret e]) σ ≠ .next σ' := by
  rw [runActions_append]
  intro h
  obtain ⟨τ, -, h⟩ := Flow.bind_eq_next h
  obtain ⟨τ', h, -⟩ := Flow.bind_eq_next h
  obtain ⟨w, define, e', v, ha, -, -⟩ := Action.run_eq_next h
  cases ha

theorem runThrough_ne_next (x y : UInt8) (σ : Store) : p.runThrough x y ≠ .next σ := by
  intro h
  obtain ⟨σ₁, -, h⟩ := Flow.bind_eq_next h
  obtain ⟨σ₂, -, h⟩ := Flow.bind_eq_next h
  exact runActions_ret_ne_next _ _ _ _ h

/-- **What the machine returns on a body with a conditional.** -/
theorem runVM_iff_runThrough (hs : p.AssignedBefore) (hn : p.locals.length ≤ 5) {code : List UInt8}
    (hcode : code = bytes (labelsOf (p.code p.locals)) (p.code p.locals))
    (hfit : 8 + code.length + p.depth ≤ 256) (x y v : UInt8) :
    (∃ n, runVM n code x y = .value v) ↔ p.runThrough x y = .ret v := by
  obtain ⟨k, hlead⟩ := runThrough_exec hs hn hcode rfl hfit x y
  exact runVM_iff_of_leads hlead (runThrough_ne_next x y)

end IfProgram

/-! ## Against the semantics of the body -/

/-- A block is run as its actions are, up to what the outer variables are after it. -/
theorem runBlock_eq (as : List Action) (hidden : Text → Option UInt8) (σ : Store) :
    ∃ leave : Store → Store, runBlock as hidden σ = (runActions as σ).bind fun σ' => .next (leave σ') := by
  induction as generalizing hidden σ with
  | nil => exact ⟨fun σ' z => (hidden z).getD (σ' z), rfl⟩
  | cons a as ih =>
    cases a with
    | ret e =>
      refine ⟨id, ?_⟩
      simp only [runBlock, runActions, Action.run, SExpr.bind]
      cases e.eval σ <;> rfl
    | assign z define e =>
      simp only [runBlock, runActions, Action.run, SExpr.bind]
      cases e.eval σ with
      | none => exact ⟨id, rfl⟩
      | some v => exact ih _ (σ.set z v)

/-- What the blocks do to the rest of the body has no effect on its value `v`: where a block that is run comes to
its end, the rest gives `v` from the variables as the block leaves them, its own in the place of outer ones of
the same name; and after the `then` block, when the `else` block has been run as well. -/
def IfProgram.Unaffected (p : IfProgram) (x y v : UInt8) : Prop :=
  ∀ σ b c, runActions p.before (Store.start x y) = .next σ → p.branch = some b → b.cond.eval σ = some c →
    (c = 0 → ∀ σ', runActions (b.els.getD []) σ = .next σ' →
      runActions (p.after ++ [.ret p.result]) σ' = .ret v) ∧
    (c ≠ 0 → ∀ σ', runActions b.body σ = .next σ' →
      (runActions (b.els.getD []) σ').bind (runActions (p.after ++ [.ret p.result])) = .ret v)

section Compare

variable {b : Branch} {σ : Store} {v : UInt8} {rest : Store → Flow}

theorem Flow.bind_assoc (f : Flow) (k l : Store → Flow) :
    (f.bind k).bind l = f.bind fun σ => (k σ).bind l := by
  cases f <;> rfl

/-- A block that returns or faults does so whatever comes after it. -/
theorem Flow.bind_iff {f : Flow} {leave : Store → Store} {k : Store → Flow}
    (h : (f.bind fun σ => .next (leave σ)).bind rest = .ret v) :
    f.bind k = .ret v ↔ ∀ σ', f = .next σ' → k σ' = .ret v := by
  cases f with
  | next σ =>
    refine ⟨?_, fun hall => hall σ rfl⟩
    rintro hk σ' ⟨⟩
    exact hk
  | ret w => exact ⟨fun _ _ heq => (nomatch heq), fun _ => h⟩
  | fault => cases h

/-- The same for a conditional and the rest of the body. -/
theorem Branch.runThrough_iff (h : (b.run σ).bind rest = .ret v) :
    (b.runThrough σ).bind rest = .ret v ↔ ∀ c, b.cond.eval σ = some c →
      (c = 0 → ∀ σ', runActions (b.els.getD []) σ = .next σ' → rest σ' = .ret v) ∧
      (c ≠ 0 → ∀ σ', runActions b.body σ = .next σ' →
        (runActions (b.els.getD []) σ').bind rest = .ret v) := by
  rw [Branch.run, SExpr.bind] at h
  rw [Branch.runThrough, SExpr.bind]
  cases hc : b.cond.eval σ with
  | none =>
    rw [hc] at h
    cases h
  | some c =>
    simp only [hc] at h ⊢
    obtain ⟨leave, hleave⟩ := runBlock_eq (if c = 0 then b.els.getD [] else b.body) (fun _ => none) σ
    rw [hleave] at h
    by_cases h0 : c = 0
    · simp only [if_pos h0] at h ⊢
      rw [Flow.bind_iff h]
      constructor
      · rintro hall c' ⟨⟩
        exact ⟨fun _ => hall, fun hne => absurd h0 hne⟩
      · exact fun hall => (hall c rfl).1 h0
    · simp only [if_neg h0] at h ⊢
      rw [Flow.bind_assoc, Flow.bind_iff h]
      constructor
      · rintro hall c' ⟨⟩
        exact ⟨fun heq => absurd heq h0, fun _ => hall⟩
      · exact fun hall => (hall c rfl).2 h0

end Compare

theorem IfProgram.runThrough_iff {p : IfProgram} {x y v : UInt8} (h : p.run x y = .ret v) :
    p.runThrough x y = .ret v ↔ p.Unaffected x y v := by
  unfold IfProgram.run at h
  unfold IfProgram.runThrough IfProgram.Unaffected
  cases hbefore : runActions p.before (Store.start x y) with
  | fault =>
    rw [hbefore] at h
    cases h
  | ret w =>
    rw [hbefore] at h
    exact ⟨fun _ _ _ _ hσ => (nomatch hσ), fun _ => h⟩
  | next σ =>
    rw [hbefore] at h
    match hb : p.branch with
    | none =>
      rw [hb] at h
      exact ⟨fun _ _ _ _ _ hb' => (nomatch hb'), fun _ => h⟩
    | some b =>
      rw [hb] at h
      refine (Branch.runThrough_iff h).trans ⟨fun hall τ b' c hτ hb' hc => ?_, fun hall c hc => ?_⟩
      · cases hτ
        cases hb'
        exact hall c hc
      · exact hall σ b c rfl rfl hc

/-- **The compiler on bodies with a conditional**: where the body has the value `v`, the machine returns it if
and only if the blocks leave the rest of the body unaffected. -/
theorem compile_if_iff (p : IfProgram) (hl : p.LitsFit) (hs : p.AssignedBefore) (hn : p.locals.length ≤ 5) :
    ∃ asm T code, compile p.func Table.initial = some (.ok asm, T) ∧ assemble asm = some (.ok code) ∧
      (8 + code.length + p.depth ≤ 256 → ∀ x y v, p.run x y = .ret v →
        ((∃ n, runVM n code x y = .value v) ↔ p.Unaffected x y v)) := by
  refine ⟨_, _, _, p.compile_eq hl hs, assemble_render p.code_ne_nil (p.inRange_code hn), ?_⟩
  intro hfit x y v hrun
  rw [IfProgram.runVM_iff_runThrough hs hn rfl hfit x y v]
  exact IfProgram.runThrough_iff hrun

/-- `z := 0; if x == 0 { z = 1 } else { z = 2 }; return z`. -/
def assignInBoth : IfProgram where
  before := [.assign "z".toList true (.lit 0)]
  branch := some ⟨.bin (.var nameX) .eql (.lit 0), [.assign "z".toList false (.lit 1)],
    some [.assign "z".toList false (.lit 2)]⟩
  after := []
  result := .var "z".toList

theorem assignInBoth_litsFit : assignInBoth.LitsFit where
  before := by
    intro a ha
    rw [List.mem_singleton.mp ha]
    exact (by decide : 0 < 2 ^ 63)
  branch := by
    rintro b ⟨⟩
    refine ⟨⟨trivial, (by decide : 0 < 2 ^ 63)⟩, fun a ha => ?_, fun a ha => ?_⟩
    · rw [List.mem_singleton.mp ha]
      exact (by decide : 1 < 2 ^ 63)
    · rw [List.mem_singleton.mp ha]
      exact (by decide : 2 < 2 ^ 63)
  after := by
    rintro a ⟨⟩
  result := trivial

/-- The byte code of the sample. -/
def assignInBothCode : List UInt8 :=
  [0x02, 0, 0x03, 3, 0x01, 1, 0x02, 0, 0x14, 0x21, 23, 0x02, 1, 0x03, 3, 0x02, 2, 0x03, 3, 0x01, 3, 0x03, 0, 0xff]

theorem assignInBoth_compile : ∃ asm T, compile assignInBoth.func Table.initial = some (.ok asm, T) ∧
    assemble asm = some (.ok assignInBothCode) :=
  ⟨_, _, assignInBoth.compile_eq assignInBoth_litsFit (by decide),
    (assemble_render assignInBoth.code_ne_nil (assignInBoth.inRange_code (by decide))).trans rfl⟩

/-- With `x = 0` the body has the value 1, and the machine returns 2. -/
theorem assignInBoth_falls_through : assignInBoth.LitsFit ∧ assignInBoth.AssignedBefore ∧
    assignInBoth.locals.length ≤ 5 ∧
    (∃ asm T, compile assignInBoth.func Table.initial = some (.ok asm, T) ∧
      assemble asm = some (.ok assignInBothCode)) ∧
    8 + assignInBothCode.length + assignInBoth.depth ≤ 256 ∧ assignInBoth.run 0 0 = .ret 1 ∧
    (∃ n, runVM n assignInBothCode 0 0 = .value 2) ∧ ¬ ∃ n, runVM n assignInBothCode 0 0 = .value 1 := by
  have hcode : assignInBothCode =
      bytes (labelsOf (assignInBoth.code assignInBoth.locals)) (assignInBoth.code assignInBoth.locals) := rfl
  have hiff := IfProgram.runVM_iff_runThrough (p := assignInBoth) (by decide) (by decide) hcode (by decide) 0 0
  refine ⟨assignInBoth_litsFit, by decide, by decide, assignInBoth_compile, by decide, rfl, ?_, ?_⟩
  · rw [hiff]
    rfl
  · rw [hiff]
    intro h
    cases h

/-- With `x = 1` only the `else` block is run. -/
theorem compile_if_iff_assignInBoth : ∃ asm T code,
    compile assignInBoth.func Table.initial = some (.ok asm, T) ∧ assemble asm = some (.ok code) ∧
      assignInBoth.run 1 0 = .ret 2 ∧ assignInBoth.Unaffected 1 0 2 ∧ ∃ n, runVM n code 1 0 = .value 2 := by
  obtain ⟨asm, T, code, hc, ha, hiff⟩ := compile_if_iff assignInBoth assignInBoth_litsFit (by decide) (by decide)
  have hcode : code = assignInBothCode := by
    obtain ⟨asm', T', hc', ha'⟩ := assignInBoth_compile
    cases hc.symm.trans hc'
    cases ha.symm.trans ha'
    rfl
  have hrest : assignInBoth.Unaffected 1 0 2 := by
    rintro σ b c ⟨⟩ ⟨⟩ ⟨⟩
    refine ⟨?_, fun hne => absurd rfl hne⟩
    rintro - σ' ⟨⟩
    rfl
  exact ⟨asm, T, code, hc, ha, rfl, hrest, (hiff (by rw [hcode]; decide) 1 0 2 rfl).mpr hrest⟩

end Csapp.Compiler
