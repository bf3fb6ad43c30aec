import Csapp.Compiler.Scope

/-!
# Compiler.Loop — correctness of the compiler on bodies with a loop

The compiler jumps to the test at `l2` first.  The test compares the condition with 1 and goes back to `l1`
where they are equal: a condition, which is 0 or 1, holds if and only if the machine goes back
(`test_exec`).  The rounds of the loop follow by induction on its runs (`loop_exec`), and with the statements
around it a body that returns `v` makes the machine return `v` (`compile_loop_correct`).
-/

namespace Csapp.Compiler

open Csapp.Lib

section Loop

variable {names : List Text} (hn : names.length ≤ 5) {labels : Label → UInt8} {code : List UInt8}
  {cond : SExpr} {k : ℕ} {σ : Store} {s : State}
include hn

/-- The loop test goes to `l1` where the condition is 1, and on where it is 0. -/
theorem test_exec {k₁ : ℕ} (hs : Ready code names k σ s)
    (hat : At code k (bytes labels (testCode names cond))) (hl : labels .l1 = codeAddr k₁)
    (hc : Covers names cond.accesses) (hroom : 8 + code.length + max cond.depth 2 ≤ 256)
    {c : UInt8} (hv : cond.eval σ = some c) (hc01 : c = 0 ∨ c = 1) :
    ∃ s', Reaches cycle s s' ∧
      Ready code names (if c = 0 then k + size (testCode names cond) else k₁) σ s' := by
  rw [testCode, bytes_append] at hat
  obtain ⟨hat, hattest⟩ := hat.append
  rw [length_bytes] at hattest
  have hpush := hs.pushes hn hat hc (by omega)
  rw [hv] at hpush
  obtain ⟨m, hreach, hm, hf⟩ := hpush
  rw [← hs.eq] at hreach
  obtain ⟨hat₁, hattest⟩ := At.append (c := [opPushi, 1]) hattest
  obtain ⟨hat₂, hat₃⟩ := At.append (c := [opNeq]) hattest
  have hl₀ := hf.loaded (by omega) hs.loaded
  have hf₁ : Framed code (0xff - 1) m (m.set (0xff - 1) 1) := Framed.set 1 (show _ ≤ 254 by omega)
  have hl₁ := hf₁.loaded (by omega) hl₀
  have hm₁ : m.set (0xff - 1) 1 0xff = c := (hf₁ 0xff (.inr (by decide))).trans hm
  have hneq := cycle_binary hl₁ (by decide) hat₂ hm₁ (if_pos rfl)
  have hf₂ : Framed code 0xff (m.set (0xff - 1) 1) ((m.set (0xff - 1) 1).set 0xff (bit (c != 1))) :=
    Framed.set _ (show _ ≤ 255 by omega)
  have hl₂ := hf₂.loaded (by omega) hl₁
  have hreach₂ := (hreach.trans (Reaches.step (cycle_pushi hl₀ hat₁))).trans (Reaches.step hneq)
  have hreach₃ := hreach₂.trans (Reaches.step (cycle_jeqz hl₂ hat₃))
  have hframe := (hf.trans (hf₁.mono (by decide))).trans hf₂
  have hsize : size (testCode names cond) = size (cond.code names) + 5 := size_append _ _
  refine ⟨_, hreach₃, ?_, rfl, rfl, hl₂, hframe.holds hn hs.holds⟩
  rcases hc01 with rfl | rfl
  · rw [if_pos rfl, hsize]
    rfl
  · exact hl

theorem test_abort (hs : Ready code names k σ s) (hat : At code k (bytes labels (testCode names cond)))
    (hc : Covers names cond.accesses) (hroom : 8 + code.length + max cond.depth 2 ≤ 256)
    (hv : cond.eval σ = none) : Aborts cycle s := by
  rw [testCode, bytes_append] at hat
  have hpush := hs.pushes hn hat.append.1 hc (by omega)
  rw [hv] at hpush
  rw [hs.eq]
  exact hpush

/-- **The rounds of the loop**, from the test on.  The induction is on the runs of the source; each round keeps
the types of the store, which the test relies on. -/
theorem loop_exec {Γ : Text → Ty} {body : List Action} {k₁ : ℕ} (hl : labels .l1 = codeAddr k₁)
    (hatb : At code k₁ (bytes labels (actionsCode names body)))
    (hatt : At code (k₁ + size (actionsCode names body)) (bytes labels (testCode names cond)))
    (hcond : cond.type Γ = some .bool) (hbody : ∀ a ∈ body, a.WellTyped Γ)
    (hc : Covers names (loopAccesses (some (cond, body))))
    (hroom : 8 + code.length + loopDepth (some (cond, body)) ≤ 256) {f : Flow}
    (hrun : LoopRuns cond body σ f) : TypedStore Γ σ → ∀ s,
      Ready code names (k₁ + size (actionsCode names body)) σ s →
      Leads code names (k₁ + size (actionsCode names body) + size (testCode names cond)) s f := by
  obtain ⟨hcc, hcb⟩ := covers_append.mp hc
  have hd : loopDepth (some (cond, body)) = max (max cond.depth 2) (actionsDepth body) := rfl
  have hroomc : 8 + code.length + max cond.depth 2 ≤ 256 := by omega
  have hroomb : 8 + code.length + actionsDepth body ≤ 256 := by omega
  -- where the condition holds, the machine comes to the body
  have henter : ∀ {τ : Store} {c : UInt8} {t : State}, cond.eval τ = some c → c ≠ 0 → TypedStore Γ τ →
      Ready code names (k₁ + size (actionsCode names body)) τ t →
      Leads code names (k₁ + size (actionsCode names body)) t (runActions body τ) := by
    intro τ c t hv hne hτ ht
    obtain ⟨t', hreach, ht'⟩ := test_exec hn ht hatt hl hcc hroomc hv (cond.eval_bool hτ hcond c hv)
    rw [if_neg hne] at ht'
    exact (runActions_exec hn ht' hatb hcb hroomb).of_reaches hreach
  induction hrun with
  | fault hv => exact fun _ s hs => test_abort hn hs hatt hcc hroomc hv
  | done hv =>
    intro _ s hs
    exact test_exec hn hs hatt hl hcc hroomc hv (.inl rfl)
  | @leave τ c hv hne hstop =>
    intro hτ s hs
    have hlead := henter hv hne hτ hs
    match hf : runActions body τ with
    | .next τ' => exact absurd hf (hstop τ')
    | .ret v =>
      rw [hf] at hlead
      exact hlead
    | .fault =>
      rw [hf] at hlead
      exact hlead
  | again hv hne hb _ ih =>
    intro hτ s hs
    have hlead := henter hv hne hτ hs
    rw [hb] at hlead
    obtain ⟨s', hreach, hs'⟩ := hlead
    exact (ih (hτ.actions hbody hb) s' hs').of_reaches hreach

end Loop

/-! ## Whole bodies -/

namespace LoopProgram

variable {p : LoopProgram} {names : List Text}

theorem inRange_code (hn : names.length ≤ 5) : ∀ i ∈ p.code names, i.InRange := by
  rw [code, itemsCode_eq, tailCode_eq, List.forall_mem_append, List.forall_mem_append]
  refine ⟨inRange_actionsCode hn _, ?_, inRange_actionsCode hn _⟩
  match p.loop with
  | none => exact List.forall_mem_nil _
  | some (cond, body) =>
    have hctl : ∀ i ∈ [Instr.jump .l2, .label .l1], i.InRange := by simp [Instr.InRange]
    have htest : ∀ i ∈ [Instr.pushi 1, .neq, .jeqz .l1], i.InRange := by simp [Instr.InRange]
    simp only [loopCode, testCode, List.forall_mem_append]
    exact ⟨⟨⟨hctl, inRange_actionsCode hn body⟩, by simp [Instr.InRange]⟩, cond.inRange_code hn, htest⟩

theorem code_ne_nil : p.code names ≠ [] := by
  intro h
  have : (Instr.halt : Instr) ∈ p.code names := by simp [code, tailCode, Action.code]
  rw [h] at this
  cases this

/-- The two labels of the loop. -/
theorem labels_code {cond : SExpr} {body : List Action} (hl : p.loop = some (cond, body)) :
    labelsOf (p.code names) .l1 = codeAddr (size (itemsCode names p.before) + 2) ∧
      labelsOf (p.code names) .l2 =
        codeAddr (size (itemsCode names p.before) + 2 + size (actionsCode names body)) := by
  have h₁ : p.code names = (itemsCode names p.before ++ [.jump .l2]) ++ .label .l1 ::
      (actionsCode names body ++ ([.label .l2] ++ (testCode names cond ++ tailCode names p.after p.result))) := by
    simp [code, hl, loopCode]
  have h₂ : p.code names = (itemsCode names p.before ++ [.jump .l2, .label .l1] ++ actionsCode names body) ++
      .label .l2 :: (testCode names cond ++ tailCode names p.after p.result) := by
    simp [code, hl, loopCode]
  have hrest : ∀ l, NoLabel l (testCode names cond ++ tailCode names p.after p.result) := by
    intro l
    rw [tailCode_eq]
    refine ((cond.noLabel_code l).append ?_).append (noLabel_actionsCode l _)
    simp [NoLabel]
  have hl₂ : NoLabel .l1 [Instr.label .l2] := by simp [NoLabel]
  constructor
  · rw [h₁, labelsOf_append ((noLabel_actionsCode .l1 body).append (hl₂.append (hrest .l1))), size_append]
    rfl
  · rw [h₂, labelsOf_append (hrest .l2), size_append, size_append]
    rfl

/-- The loop and what follows it, from the position after the statements before. -/
theorem loopEnds_exec {Γ : Text → Ty} (ht : p.WellTyped Γ) (hs : p.WellScoped) (hn : p.locals.length ≤ 5)
    {code : List UInt8} {labels : Label → UInt8} {k : ℕ} {σ : Store} {s : State}
    (hlabels : ∀ cond body, p.loop = some (cond, body) → labels .l1 = codeAddr (k + 2) ∧
      labels .l2 = codeAddr (k + 2 + size (actionsCode p.locals body)))
    (hat : At code k (bytes labels (loopCode p.locals p.loop ++ tailCode p.locals p.after p.result)))
    (hfit : 8 + code.length + p.depth ≤ 256) (hz : Zeroed [nameX, nameY] (itemsAccesses p.before) σ)
    (hσ : TypedStore Γ σ) (hready : Ready code p.locals k σ s) {v : UInt8} (hends : p.LoopEnds σ (.ret v)) :
    ∃ k', Leads code p.locals k' s (.ret v) := by
  have hcov := covers_of_assignedBefore (assignedBefore_of_wellScoped hs)
  have hcov' := (covers_append.mp (covers_append.mp hcov).2)
  have hdepth : p.depth = max (itemsDepth p.before) (max (loopDepth p.loop)
    (max (itemsDepth p.after) p.result.depth)) := rfl
  have hdtail := actionsDepth_tail p.after p.result
  rw [tailCode_eq] at hat
  unfold LoopEnds at hends
  match hl : p.loop with
  | none =>
    rw [hl] at hends hat
    have hscope : Compiler.WellScoped [nameX, nameY] [nameX, nameY] (itemsAccesses p.before ++
        (itemsAccesses p.after ++ p.result.accesses)) := by
      have := hs
      simpa only [LoopProgram.WellScoped, accesses, hl, loopAccesses, List.nil_append] using this
    rw [runTail_eq hscope hz] at hends
    have := runActions_exec hn hready hat hcov'.2.tailActions (by omega)
    rw [hends] at this
    exact ⟨_, this⟩
  | some (cond, body) =>
    rw [hl] at hends hat hcov' hdepth
    obtain ⟨g, hrun, hg⟩ := hends
    obtain ⟨hl₁, hl₂⟩ := hlabels cond body hl
    obtain ⟨hcond, hbody⟩ := ht.loop cond body hl
    simp only [loopCode, bytes_append] at hat
    obtain ⟨hat, hattail⟩ := hat.append
    obtain ⟨hat, hattest⟩ := hat.append
    obtain ⟨hat, -⟩ := hat.append
    obtain ⟨hatjump, hatbody⟩ := hat.append
    have hj : size [Instr.jump .l2, .label .l1] = 2 := rfl
    have hlb : size [Instr.label .l2] = 0 := rfl
    simp only [List.length_append, length_bytes, hj, hlb, Nat.add_zero, ← Nat.add_assoc] at hatbody hattest hattail
    have hjump : At code k [opJump, labels .l2] := hatjump
    rw [hl₂] at hjump
    obtain ⟨s₁, hreach₁, hs₁⟩ := hready.jump hjump
    have hloop := loop_exec hn hl₁ hatbody hattest hcond hbody hcov'.1 (by omega) hrun hσ s₁ hs₁
    have hlead := hloop.of_reaches hreach₁
    cases g with
    | fault => cases hg
    | ret w =>
      cases hg
      exact ⟨_, hlead⟩
    | next σ' =>
      obtain ⟨s', hreach, hs'⟩ := hlead
      have hscope : Compiler.WellScoped [nameX, nameY] [nameX, nameY]
          ((itemsAccesses p.before ++ loopAccesses (some (cond, body))) ++
            (itemsAccesses p.after ++ p.result.accesses)) := by
        have := hs
        simpa only [LoopProgram.WellScoped, accesses, hl, List.append_assoc] using this
      have hg' : runTail p.after p.result σ' = .ret v := hg
      rw [runTail_eq hscope (hz.loop hrun)] at hg'
      have := runActions_exec hn hs' hattail hcov'.2.tailActions (by omega)
      rw [hg'] at this
      exact ⟨_, this.of_reaches hreach⟩

/-- **A body that returns makes the machine return.** -/
theorem returns_exec {Γ : Text → Ty} (ht : p.WellTyped Γ) (hs : p.WellScoped) (hn : p.locals.length ≤ 5)
    {code : List UInt8} (hcode : code = bytes (labelsOf (p.code p.locals)) (p.code p.locals))
    (hfit : 8 + code.length + p.depth ≤ 256) {x y v : UInt8} (hret : p.Returns x y v) :
    ∃ k, Leads code p.locals k (startState code x y) (.ret v) := by
  have hcov := covers_append.mp (covers_of_assignedBefore (assignedBefore_of_wellScoped hs))
  have hdepth : p.depth = max (itemsDepth p.before) (max (loopDepth p.loop)
    (max (itemsDepth p.after) p.result.depth)) := rfl
  have hat : At code 0 (bytes (labelsOf (p.code p.locals)) (p.code p.locals)) := ⟨[], by simp [hcode]⟩
  rw [LoopProgram.code, itemsCode_eq, bytes_append] at hat
  obtain ⟨hatb, hat⟩ := hat.append
  rw [length_bytes] at hat
  have hbefore := runActions_exec hn (ready_start (by omega) hn x y) hatb hcov.1.actionsOf
    (by have := itemsDepth_eq p.before; omega)
  have hitems := runItems_eq (show Compiler.WellScoped _ _ ([] ++ _) from hs) (zeroed_start x y)
  rw [← hitems] at hbefore
  rcases hret with hret | ⟨σ, hnext, hends⟩
  · rw [hret] at hbefore
    exact ⟨_, hbefore⟩
  · rw [hnext] at hbefore
    obtain ⟨s, hreach, hready⟩ := hbefore
    have hrun : runActions (actionsOf p.before) (Store.start x y) = .next σ := hitems.symm.trans hnext
    have htyped : ∀ a ∈ actionsOf p.before, a.WellTyped Γ := wellTyped_actionsOf ht.before
    have hz : Zeroed [nameX, nameY] (itemsAccesses p.before) σ := (zeroed_start x y).items hrun
    obtain ⟨k, hlead⟩ := loopEnds_exec ht hs hn (k := 0 + size (actionsCode p.locals (actionsOf p.before)))
      (fun cond body hl => by rw [Nat.zero_add, ← itemsCode_eq]; exact labels_code hl) hat hfit hz
      ((typedStore_start ht.paramX ht.paramY x y).actions htyped hrun) hready hends
    exact ⟨k, hlead.of_reaches hreach⟩

end LoopProgram

/-- **Compiler correctness, loop fragment.** -/
theorem compile_loop_correct (p : LoopProgram) (Γ : Text → Ty) (ht : p.WellTyped Γ) (hs : p.WellScoped)
    (hn : p.locals.length ≤ 5) :
    ∃ asm T code, compile p.func Table.initial = some (.ok asm, T) ∧ assemble asm = some (.ok code) ∧
      (8 + code.length + p.depth ≤ 256 → ∀ x y v, p.Returns x y v → ∃ n, runVM n code x y = .value v) := by
  refine ⟨_, _, _, p.compile_eq ht hs, assemble_render p.code_ne_nil (p.inRange_code hn), ?_⟩
  intro hfit x y v hret
  obtain ⟨k, hlead⟩ := LoopProgram.returns_exec ht hs hn rfl hfit hret
  exact runVM_of_leads hlead

/-- `z := 0; for x > 0 { z = z + y; x = x - 1 }; return z`. -/
def productLoop : LoopProgram where
  before := [.act (.assign "z".toList true (.lit 0))]
  loop := some (.bin (.var nameX) .gtr (.lit 0),
    [.assign "z".toList false (.bin (.var "z".toList) .add (.var nameY)),
     .assign nameX false (.bin (.var nameX) .sub (.lit 1))])
  after := []
  result := .var "z".toList

theorem productLoop_wellTyped : productLoop.WellTyped fun _ => .byte where
  paramX := rfl
  paramY := rfl
  before := by
    rintro i (_ | ⟨_, h⟩)
    · rfl
    · cases h
  loop := by
    rintro cond body ⟨⟩
    refine ⟨rfl, ?_⟩
    rintro a (_ | ⟨_, _ | ⟨_, h⟩⟩)
    · rfl
    · rfl
    · cases h
  after := by
    rintro i ⟨⟩
  result := rfl

theorem productLoop_returns : productLoop.Returns 2 5 10 := by
  refine .inr ⟨_, rfl, ?_⟩
  exact ⟨_, .again (c := 1) rfl (by decide) rfl (.again (c := 1) rfl (by decide) rfl (.done rfl)), rfl⟩

theorem compile_loop_correct_product : ∃ asm T code,
    compile productLoop.func Table.initial = some (.ok asm, T) ∧ assemble asm = some (.ok code) ∧
      ∃ n, runVM n code 2 5 = .value 10 := by
  have hs : productLoop.WellScoped := by decide
  obtain ⟨asm, T, code, hc, ha, hrun⟩ :=
    compile_loop_correct productLoop _ productLoop_wellTyped hs (by decide)
  refine ⟨asm, T, code, hc, ha, hrun ?_ 2 5 10 productLoop_returns⟩
  have hasm : asm = render (productLoop.code productLoop.locals) := by
    have := hc.symm.trans (productLoop.compile_eq productLoop_wellTyped hs)
    cases this
    rfl
  have hcode := ha.symm.trans (hasm ▸ assemble_render productLoop.code_ne_nil
    (productLoop.inRange_code (show productLoop.locals.length ≤ 5 by decide)))
  have hlen : code.length = size (productLoop.code productLoop.locals) := by
    rw [Except.ok.inj (Option.some.inj hcode), length_bytes]
  rw [hlen]
  decide

end Csapp.Compiler
