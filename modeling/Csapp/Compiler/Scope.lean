import Csapp.Compiler.Exec

/-!
# Compiler.Scope — what scoping and typing give at run time

A declaration sets to zero a variable that has not been assigned and still is zero, so that a well-scoped body
runs as its assignments and returns alone (`runItems_eq`).  A well-typed condition has the value 0 or 1
(`SExpr.eval_bool`).  The last section has what the machine is started with.
-/

namespace Csapp.Compiler

open Csapp.Lib

/-! ## Declarations -/

def actionsOf (is : List Item) : List Action :=
  is.filterMap fun
    | .var _ => none
    | .act a => some a

theorem decl_fresh {declared assigned : List Text} {acc rest : List Access} {z : Text}
    (h : WellScoped declared assigned (acc ++ .decl z :: rest)) : z ∉ declared ∧ .write z ∉ acc := by
  induction acc generalizing declared assigned with
  | nil => exact ⟨h.1, List.not_mem_nil⟩
  | cons a acc ih =>
    cases a with
    | read w =>
      obtain ⟨h₁, h₂⟩ := ih h.2
      exact ⟨h₁, by simpa using h₂⟩
    | decl w =>
      obtain ⟨h₁, h₂⟩ := ih h.2
      exact ⟨fun hz => h₁ (List.mem_cons_of_mem w hz), by simpa using h₂⟩
    | write w =>
      obtain ⟨h₁, h₂⟩ := ih h.2
      refine ⟨h₁, fun hz => ?_⟩
      rcases List.mem_cons.mp hz with heq | hz
      · cases heq
        exact h₁ h.1
      · exact h₂ hz

/-- Only an assignment goes on. -/
theorem Action.run_eq_next {a : Action} {σ σ' : Store} (h : a.run σ = .next σ') :
    ∃ w define e v, a = .assign w define e ∧ e.eval σ = some v ∧ σ' = σ.set w v := by
  cases a with
  | ret e =>
    rw [Action.run, SExpr.bind] at h
    cases hv : e.eval σ <;> rw [hv] at h <;> cases h
  | assign w define e =>
    rw [Action.run, SExpr.bind] at h
    cases hv : e.eval σ with
    | none =>
      rw [hv] at h
      cases h
    | some v =>
      rw [hv] at h
      cases h
      exact ⟨w, define, e, v, rfl, hv, rfl⟩

theorem Action.run_untouched {a : Action} {σ σ' : Store} {z : Text} (h : a.run σ = .next σ')
    (hz : .write z ∉ a.accesses) : σ' z = σ z := by
  obtain ⟨w, define, e, v, rfl, -, rfl⟩ := Action.run_eq_next h
  refine if_neg fun heq => hz ?_
  simp [Action.accesses, heq]

/-- A variable that is neither declared at the start nor written so far is zero. -/
def Zeroed (declared : List Text) (acc : List Access) (σ : Store) : Prop :=
  ∀ z, z ∉ declared → .write z ∉ acc → σ z = 0

section Zeroed

variable {declared : List Text} {acc : List Access} {σ σ' : Store}

theorem Zeroed.action {a : Action} (h : Zeroed declared acc σ) (hr : a.run σ = .next σ') :
    Zeroed declared (acc ++ a.accesses) σ' := by
  intro z hd hz
  rw [List.mem_append, not_or] at hz
  rw [Action.run_untouched hr hz.2]
  exact h z hd hz.1

theorem Flow.bind_eq_next {f : Flow} {k : Store → Flow} (h : f.bind k = .next σ') :
    ∃ σ, f = .next σ ∧ k σ = .next σ' := by
  cases f with
  | next σ => exact ⟨σ, rfl, h⟩
  | ret v => cases h
  | fault => cases h

theorem Zeroed.actions {as : List Action} (h : Zeroed declared acc σ) (hr : runActions as σ = .next σ') :
    Zeroed declared (acc ++ actionsAccesses as) σ' := by
  induction as generalizing acc σ with
  | nil =>
    cases hr
    simpa [actionsAccesses] using h
  | cons a as ih =>
    obtain ⟨σ₁, h₁, h₂⟩ := Flow.bind_eq_next hr
    simpa [actionsAccesses] using ih (h.action h₁) h₂

theorem Zeroed.loop {cond : SExpr} {body : List Action} (h : Zeroed declared acc σ)
    (hr : LoopRuns cond body σ (.next σ')) :
    Zeroed declared (acc ++ loopAccesses (some (cond, body))) σ' := by
  have hmono : ∀ {τ : Store}, Zeroed declared (acc ++ actionsAccesses body) τ →
      Zeroed declared (acc ++ loopAccesses (some (cond, body))) τ := fun hτ z hd hz =>
    hτ z hd fun hm => hz (by simp only [loopAccesses, List.mem_append] at hm ⊢; tauto)
  have hrun : ∀ (τ : Store) (f : Flow), LoopRuns cond body τ f →
      Zeroed declared (acc ++ actionsAccesses body) τ → ∀ τ', f = .next τ' →
      Zeroed declared (acc ++ actionsAccesses body) τ' := by
    intro τ f hτ
    induction hτ with
    | fault => exact fun _ _ hf => nomatch hf
    | done =>
      rintro h _ ⟨⟩
      exact h
    | leave _ _ hne => exact fun _ τ' hf => absurd hf (hne τ')
    | again _ _ hb _ ih =>
      intro h τ' hf
      have := h.actions hb
      refine ih (fun z hd hz => this z hd fun hm => hz ?_) τ' hf
      simp only [List.mem_append] at hm ⊢
      tauto
  refine hmono (hrun σ _ hr (fun z hd hz => h z hd fun hm => hz ?_) σ' rfl)
  exact List.mem_append_left _ hm

theorem Zeroed.items {is : List Item} (h : Zeroed declared [] σ)
    (hr : runActions (actionsOf is) σ = .next σ') : Zeroed declared (itemsAccesses is) σ' := by
  intro z hd hz
  refine h.actions hr z hd fun hm => hz ?_
  rw [List.nil_append] at hm
  obtain ⟨a, ha, hm⟩ := List.mem_flatMap.mp hm
  obtain ⟨i, hi, hia⟩ := List.mem_filterMap.mp ha
  cases i with
  | var zs => cases hia
  | act b =>
    cases hia
    exact List.mem_flatMap.mpr ⟨_, hi, hm⟩

/-- **Declarations do nothing** in a well-scoped body. -/
theorem runItems_eq {assigned : List Text} {is : List Item} {rest : List Access}
    (hs : WellScoped declared assigned (acc ++ (itemsAccesses is ++ rest))) (h : Zeroed declared acc σ) :
    runItems is σ = runActions (actionsOf is) σ := by
  induction is generalizing acc σ with
  | nil => rfl
  | cons i is ih =>
    cases i with
    | var zs =>
      have hzero : (fun k => if k ∈ zs then 0 else σ k) = σ := by
        funext z
        by_cases hz : z ∈ zs
        · rw [if_pos hz]
          obtain ⟨us, vs, rfl⟩ := List.append_of_mem hz
          have hfresh : WellScoped declared assigned ((acc ++ us.map .decl) ++ .decl z ::
              (vs.map .decl ++ (itemsAccesses is ++ rest))) := by
            simpa [itemsAccesses, Item.accesses] using hs
          obtain ⟨h₁, h₂⟩ := decl_fresh hfresh
          exact (h z h₁ fun hm => h₂ (List.mem_append_left _ hm)).symm
        · rw [if_neg hz]
      show runItems is (fun k => if k ∈ zs then 0 else σ k) = _
      rw [hzero]
      have hs' : WellScoped declared assigned ((acc ++ zs.map .decl) ++ (itemsAccesses is ++ rest)) := by
        simpa [itemsAccesses, Item.accesses] using hs
      exact ih hs' fun z hd hz => h z hd fun hm => hz (List.mem_append_left _ hm)
    | act a =>
      show (a.run σ).bind (runItems is) = (a.run σ).bind (runActions (actionsOf is))
      cases hr : a.run σ with
      | next σ₁ => exact ih (by simpa [itemsAccesses, Item.accesses] using hs) (h.action hr)
      | ret v => rfl
      | fault => rfl

theorem runActions_append (as bs : List Action) (σ : Store) :
    runActions (as ++ bs) σ = (runActions as σ).bind (runActions bs) := by
  induction as generalizing σ with
  | nil => rfl
  | cons a as ih =>
    show (a.run σ).bind (runActions (as ++ bs)) = ((a.run σ).bind (runActions as)).bind (runActions bs)
    cases a.run σ with
    | next σ₁ => exact ih σ₁
    | ret v => rfl
    | fault => rfl

/-- The actions after the loop or the conditional, with the final return. -/
def tailActions (after : List Item) (result : SExpr) : List Action := actionsOf after ++ [.ret result]

theorem runTail_eq {assigned : List Text} {after : List Item} {result : SExpr} {rest : List Access}
    (hs : WellScoped declared assigned (acc ++ (itemsAccesses after ++ rest))) (h : Zeroed declared acc σ) :
    runTail after result σ = runActions (tailActions after result) σ := by
  rw [runTail, runItems_eq hs h, tailActions, runActions_append]
  refine congrArg (Flow.bind _) (funext fun σ' => ?_)
  show _ = ((Action.ret result).run σ').bind (runActions [])
  cases (Action.ret result).run σ' <;> rfl

end Zeroed

theorem zeroed_start (x y : UInt8) : Zeroed [nameX, nameY] [] (Store.start x y) := by
  intro z hz _
  rw [List.mem_cons, List.mem_singleton, not_or] at hz
  exact (if_neg hz.1).trans (if_neg hz.2)

/-! ## Types -/

/-- A variable of type `bool` has a truth value. -/
def TypedStore (Γ : Text → Ty) (σ : Store) : Prop := ∀ z, Γ z = .bool → σ z = 0 ∨ σ z = 1

theorem BinOp.apply_bool {op : BinOp} {s t : Ty} {a b v : UInt8} (h : op.type s t = some .bool)
    (hv : op.apply a b = some v) : v = 0 ∨ v = 1 := by
  have hbit : ∀ c : Bool, bit c = 0 ∨ bit c = 1 := by decide
  cases op with
  | eql => cases hv; exact hbit _
  | lss => cases hv; exact hbit _
  | gtr => cases hv; exact hbit _
  | _ => cases s <;> cases t <;> cases h

/-- **A truth value is 0 or 1.** -/
theorem SExpr.eval_bool {Γ : Text → Ty} {σ : Store} (hσ : TypedStore Γ σ) (e : SExpr) :
    e.type Γ = some .bool → ∀ v, e.eval σ = some v → v = 0 ∨ v = 1 := by
  induction e with
  | lit n =>
    intro h
    unfold SExpr.type at h
    split at h <;> cases h
  | var z =>
    rintro h v ⟨⟩
    exact hσ z (Option.some.inj h)
  | paren e ih => exact ih
  | bin l op r _ _ =>
    intro h v hv
    obtain ⟨s, -, h⟩ := Option.bind_eq_some_iff.mp h
    obtain ⟨t, -, h⟩ := Option.bind_eq_some_iff.mp h
    obtain ⟨a, -, hv⟩ := Option.bind_eq_some_iff.mp hv
    obtain ⟨b, -, hv⟩ := Option.bind_eq_some_iff.mp hv
    exact BinOp.apply_bool h hv

theorem TypedStore.action {Γ : Text → Ty} {σ σ' : Store} {a : Action} (hσ : TypedStore Γ σ)
    (ha : a.WellTyped Γ) (hr : a.run σ = .next σ') : TypedStore Γ σ' := by
  obtain ⟨w, define, e, v, rfl, hv, rfl⟩ := Action.run_eq_next hr
  intro z hz
  by_cases hzw : z = w
  · subst hzw
    rw [Store.set, if_pos rfl]
    exact e.eval_bool hσ (by rw [← hz]; exact ha) v hv
  · rw [Store.set, if_neg hzw]
    exact hσ z hz

theorem TypedStore.actions {Γ : Text → Ty} {σ σ' : Store} {as : List Action} (hσ : TypedStore Γ σ)
    (has : ∀ a ∈ as, a.WellTyped Γ) (hr : runActions as σ = .next σ') : TypedStore Γ σ' := by
  induction as generalizing σ with
  | nil =>
    cases hr
    exact hσ
  | cons a as ih =>
    obtain ⟨σ₁, h₁, h₂⟩ := Flow.bind_eq_next hr
    exact ih (hσ.action (has a List.mem_cons_self) h₁) (fun b hb => has b (List.mem_cons_of_mem a hb)) h₂

theorem wellTyped_actionsOf {Γ : Text → Ty} {is : List Item} (h : ∀ i ∈ is, i.WellTyped Γ) :
    ∀ a ∈ actionsOf is, a.WellTyped Γ := by
  intro a ha
  obtain ⟨i, hi, hia⟩ := List.mem_filterMap.mp ha
  cases i with
  | var zs => cases hia
  | act b =>
    cases hia
    exact h _ hi

theorem typedStore_start {Γ : Text → Ty} (hx : Γ nameX = .byte) (hy : Γ nameY = .byte) (x y : UInt8) :
    TypedStore Γ (Store.start x y) := by
  intro z hz
  have h₁ : z ≠ nameX := fun h => by rw [h, hx] at hz; cases hz
  have h₂ : z ≠ nameY := fun h => by rw [h, hy] at hz; cases hz
  exact .inl ((if_neg h₁).trans (if_neg h₂))

/-! ## The start of the machine -/

/-- Every name of a readable piece of source is among the final names. -/
theorem covers_of_readable {names final : List Text} {acc : List Access} (h : Readable names acc)
    (hp : addNames names acc <+: final) : Covers final acc := by
  induction acc generalizing names with
  | nil => rintro z (h | h) <;> cases h
  | cons a acc ih =>
    cases a with
    | read w =>
      have hrest := ih h.2 hp
      rintro z (hz | hz)
      · rcases List.mem_cons.mp hz with heq | hz
        · cases heq
          exact h.1.mono ((prefix_addNames names _).trans hp)
        · exact hrest z (.inl hz)
      · exact hrest z (.inr (by simpa using hz))
    | decl w =>
      have hrest := ih h hp
      exact fun z hz => hrest z (by simpa using hz)
    | write w =>
      have hrest := ih h hp
      rintro z (hz | hz)
      · exact hrest z (.inl (by simpa using hz))
      · rcases List.mem_cons.mp hz with heq | hz
        · cases heq
          exact (known_addName names w).mono ((prefix_addNames _ acc).trans hp)
        · exact hrest z (.inr hz)

/-- The state in which `execute` starts. -/
def startState (code : List UInt8) (x y : UInt8) : State := ⟨0x08, 0xff, loadMemory code x y, none⟩

/-- What `runVM` starts with: the code, the parameters and zeros. -/
theorem ready_start {code : List UInt8} {names : List Text} (hfit : 8 + code.length ≤ 256)
    (hn : names.length ≤ 5) (x y : UInt8) :
    Ready code names 0 (Store.start x y) (startState code x y) := by
  have hlow : ∀ a : UInt8, a.toNat ≠ 1 → a ≠ 1 := fun a h heq => h (by rw [heq]; rfl)
  have hlow' : ∀ a : UInt8, a.toNat ≠ 2 → a ≠ 2 := fun a h heq => h (by rw [heq]; rfl)
  refine ⟨rfl, rfl, rfl, fun k b hk => ?_, fun z hz => ?_⟩
  · obtain ⟨hlt, hb⟩ := List.getElem?_eq_some_iff.mp hk
    have ha := codeAddr_toNat (k := k) (by omega)
    have hge : ¬ codeAddr k < instructionStart := by
      rw [UInt8.lt_iff_toNat_lt, ha]
      simp only [instructionStart, UInt8.reduceToNat]
      omega
    have hidx : (codeAddr k).toNat - instructionStart.toNat = k := by
      rw [ha]
      exact Nat.add_sub_cancel_left 8 k
    have h1 : codeAddr k ≠ 1 := hlow _ (by omega)
    have h2 : codeAddr k ≠ 2 := hlow' _ (by omega)
    show loadMemory code x y (codeAddr k) = b
    simp only [loadMemory, if_neg h1, if_neg h2, if_neg hge, hidx]
    rw [List.getD_eq_getElem?_getD, hk, Option.getD_some]
  · by_cases hx : z = nameX
    · subst hx
      rfl
    by_cases hy : z = nameY
    · subst hy
      rfl
    have haddr : 3 ≤ addr names z := by
      rw [addr, if_neg hx, if_neg hy]
      omega
    obtain ⟨h₁, h₂⟩ := addr_toNat hn hz
    have hlt : UInt8.ofNat (addr names z) < instructionStart := by
      rw [UInt8.lt_iff_toNat_lt, h₁]
      exact h₂
    have h3 : UInt8.ofNat (addr names z) ≠ 1 := hlow _ (by omega)
    have h4 : UInt8.ofNat (addr names z) ≠ 2 := hlow' _ (by omega)
    show loadMemory code x y (UInt8.ofNat (addr names z)) = Store.start x y z
    simp only [loadMemory, if_neg h3, if_neg h4, if_pos hlt]
    exact ((if_neg hx).trans (if_neg hy)).symm

/-- The instructions of expressions and actions, which define no label. -/
inductive Instr.Plain (names : List Text) : Instr → Prop
  | push (z : Text) : Plain names (.push (addr names z))
  | pushi (b : UInt8) : Plain names (.pushi b)
  | pop (z : Text) : Plain names (.pop (addr names z))
  | popResult : Plain names (.pop 0)
  | binary (op : BinOp) : Plain names (.binary op)
  | halt : Plain names .halt

theorem SExpr.plain_code {names : List Text} (e : SExpr) : ∀ i ∈ e.code names, i.Plain names := by
  induction e with
  | lit n =>
    intro i hi
    rw [List.mem_singleton.mp hi]
    exact .pushi _
  | var z =>
    intro i hi
    rw [List.mem_singleton.mp hi]
    exact .push z
  | paren e ih => exact ih
  | bin l op r ihl ihr =>
    intro i hi
    rcases List.mem_append.mp hi with hi | hi
    · exact (List.mem_append.mp hi).elim (ihl i) (ihr i)
    · rw [List.mem_singleton.mp hi]
      exact .binary op

theorem plain_actionsCode {names : List Text} {as : List Action} :
    ∀ i ∈ actionsCode names as, i.Plain names := by
  intro i hi
  obtain ⟨a, -, hi⟩ := List.mem_flatMap.mp hi
  cases a with
  | assign z define e =>
    rcases List.mem_append.mp hi with hi | hi
    · exact e.plain_code i hi
    · rw [List.mem_singleton.mp hi]
      exact .pop z
  | ret e =>
    rcases List.mem_append.mp hi with hi | hi
    · exact e.plain_code i hi
    · rcases List.mem_cons.mp hi with rfl | hi
      · exact .popResult
      · rw [List.mem_singleton.mp hi]
        exact .halt

theorem Instr.Plain.ne_label {names : List Text} {i : Instr} (h : i.Plain names) (l : Label) :
    i ≠ .label l := by
  intro heq
  subst heq
  cases h

theorem Instr.Plain.inRange {names : List Text} (hn : names.length ≤ 5) {i : Instr}
    (h : i.Plain names) : i.InRange := by
  have hle : ∀ z, addr names z < 2 ^ 63 := by
    intro z
    have := List.idxOf_le_length (a := z) (l := names)
    unfold addr
    split
    · decide
    · split
      · decide
      · omega
  cases h with
  | push z => exact hle z
  | pop z => exact hle z
  | popResult => exact (by decide : 0 < 2 ^ 63)
  | _ => trivial

section Plain

variable {names : List Text}

theorem SExpr.inRange_code (hn : names.length ≤ 5) (e : SExpr) : ∀ i ∈ e.code names, i.InRange :=
  fun i hi => (e.plain_code i hi).inRange hn

theorem inRange_actionsCode (hn : names.length ≤ 5) (as : List Action) :
    ∀ i ∈ actionsCode names as, i.InRange :=
  fun i hi => (plain_actionsCode i hi).inRange hn

theorem SExpr.noLabel_code (l : Label) (e : SExpr) : NoLabel l (e.code names) :=
  fun i hi => (e.plain_code i hi).ne_label l

theorem noLabel_actionsCode (l : Label) (as : List Action) : NoLabel l (actionsCode names as) :=
  fun i hi => (plain_actionsCode i hi).ne_label l

end Plain

theorem itemsCode_eq (names : List Text) (is : List Item) :
    itemsCode names is = actionsCode names (actionsOf is) := by
  induction is with
  | nil => rfl
  | cons i is ih =>
    cases i with
    | var zs => exact ih
    | act a =>
      show a.code names ++ itemsCode names is = a.code names ++ actionsCode names (actionsOf is)
      rw [ih]

theorem itemsDepth_eq (is : List Item) : itemsDepth is = actionsDepth (actionsOf is) := by
  induction is with
  | nil => rfl
  | cons i is ih =>
    cases i with
    | var zs =>
      show max 0 (itemsDepth is) = _
      rw [Nat.zero_max, ih]
      rfl
    | act a =>
      show max a.depth (itemsDepth is) = max a.depth (actionsDepth (actionsOf is))
      rw [ih]

theorem tailCode_eq (names : List Text) (after : List Item) (result : SExpr) :
    tailCode names after result = actionsCode names (tailActions after result) := by
  rw [tailCode, itemsCode_eq]
  simp [actionsCode, tailActions]

theorem actionsDepth_append (as bs : List Action) :
    actionsDepth (as ++ bs) = max (actionsDepth as) (actionsDepth bs) := by
  induction as with
  | nil => exact (Nat.zero_max _).symm
  | cons a as ih =>
    show max a.depth (actionsDepth (as ++ bs)) = max (max a.depth (actionsDepth as)) (actionsDepth bs)
    rw [ih, Nat.max_assoc]

theorem actionsDepth_tail (after : List Item) (result : SExpr) :
    actionsDepth (tailActions after result) = max (itemsDepth after) result.depth := by
  rw [tailActions, actionsDepth_append, itemsDepth_eq]
  exact congrArg (max _) (Nat.max_zero result.depth)

/-- The names of the assignments and returns are names of the items. -/
theorem Covers.actionsOf {names : List Text} {is : List Item} (h : Covers names (itemsAccesses is)) :
    Covers names (actionsAccesses (actionsOf is)) := by
  induction is with
  | nil => exact h
  | cons i is ih =>
    obtain ⟨h₁, h₂⟩ := covers_append.mp (show Covers names (i.accesses ++ itemsAccesses is) from h)
    cases i with
    | var zs => exact ih h₂
    | act a => exact covers_append.mpr ⟨h₁, ih h₂⟩

theorem Covers.tailActions {names : List Text} {after : List Item} {result : SExpr}
    (h : Covers names (itemsAccesses after ++ result.accesses)) :
    Covers names (actionsAccesses (Compiler.tailActions after result)) := by
  obtain ⟨h₁, h₂⟩ := covers_append.mp h
  have : actionsAccesses (Compiler.tailActions after result) =
      actionsAccesses (Compiler.actionsOf after) ++ result.accesses := by
    simp [actionsAccesses, Compiler.tailActions, Action.accesses]
  rw [this]
  exact covers_append.mpr ⟨h₁.actionsOf, h₂⟩

/-- The names of a body are its final names. -/
theorem covers_of_assignedBefore {acc : List Access} (h : AssignedBefore [nameX, nameY] acc) :
    Covers (addNames [] acc) acc :=
  covers_of_readable (readable_start h) (List.prefix_refl _)

theorem runVM_of_leads {code : List UInt8} {names : List Text} {k : ℕ} {x y v : UInt8}
    (h : Leads code names k (startState code x y) (.ret v)) : ∃ n, runVM n code x y = .value v := by
  obtain ⟨s, ⟨n, hn⟩, herr, hv⟩ := h
  have hexec : execute n (loadMemory code x y) = some (.halted s) := hn
  refine ⟨n, ?_⟩
  rw [runVM, hexec]
  simp only [herr, hv]

theorem execute_of_runVM {n : ℕ} {code : List UInt8} {x y v : UInt8} (h : runVM n code x y = .value v) :
    ∃ s, cycles cycle n (startState code x y) = some (.halted s) ∧ s.memory 0 = v := by
  rw [runVM] at h
  match hexec : execute n (loadMemory code x y) with
  | none =>
    rw [hexec] at h
    cases h
  | some (.running s) =>
    rw [hexec] at h
    cases h
  | some (.halted s) =>
    refine ⟨s, hexec, ?_⟩
    rw [hexec] at h
    match herr : s.err with
    | none =>
      simp only [herr] at h
      exact Exit.value.inj h
    | some e =>
      simp only [herr] at h
      cases h

/-- The machine returns what the source does, and nothing where the source divides by zero. -/
theorem runVM_iff_of_leads {code : List UInt8} {names : List Text} {k : ℕ} {x y v : UInt8} {f : Flow}
    (h : Leads code names k (startState code x y) f) (hf : ∀ σ, f ≠ .next σ) :
    (∃ n, runVM n code x y = .value v) ↔ f = .ret v := by
  constructor
  · rintro ⟨n, hn⟩
    obtain ⟨s, hs, hv⟩ := execute_of_runVM hn
    cases f with
    | next σ => exact absurd rfl (hf σ)
    | ret w =>
      obtain ⟨s', ⟨n', hn'⟩, -, hw⟩ := h
      have heq := (stopped_halted s).unique (stopped_halted s') hs hn'
      cases heq
      rw [← hv, hw]
    | fault =>
      obtain ⟨n', hn'⟩ := h
      cases (stopped_halted s).unique stopped_none hs hn'
  · rintro rfl
    exact runVM_of_leads h

end Csapp.Compiler
