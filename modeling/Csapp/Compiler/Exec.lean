import Csapp.Compiler.Layout

/-!
# Compiler.Exec — running the code of expressions and statements

Code, variables and operand stack share the 256 bytes.  Wherever the code of an expression stands, as long as
the cells of its operand stack are neither code nor variables, it pushes its value and writes those cells only
(`SExpr.execAt`); a division by zero aborts the machine.  In the layout of `runVM` the stack stays above the
code, `8 + code.length + depth ≤ sp + 1` (`SExpr.exec`).
`Ready` ties a state between two statements to a store, and `Leads` a run to the flow of the source.
-/

namespace Csapp.Compiler

open Csapp.Lib

/-! ## Code in memory -/

/-- `chunk` stands in the code at `k`. -/
def At (code : List UInt8) (k : ℕ) (chunk : List UInt8) : Prop := chunk <+: code.drop k

def Loaded (code : List UInt8) (m : Memory) : Prop := ∀ k b, code[k]? = some b → m (codeAddr k) = b

/-- `chunk` stands in memory from the address `p` on. -/
def LoadedAt (p : UInt8) (chunk : List UInt8) (m : Memory) : Prop :=
  ∀ k b, chunk[k]? = some b → m (p + UInt8.ofNat k) = b

section Chunks

variable {code : List UInt8} {k : ℕ}

theorem At.append {c c' : List UInt8} (h : At code k (c ++ c')) :
    At code k c ∧ At code (k + c.length) c' := by
  obtain ⟨t, ht⟩ := h
  refine ⟨⟨c' ++ t, by rw [← ht, List.append_assoc]⟩, t, ?_⟩
  rw [← List.drop_drop, ← ht, List.append_assoc, List.drop_left]

theorem At.head {b : UInt8} {c : List UInt8} (h : At code k (b :: c)) : code[k]? = some b := by
  obtain ⟨t, ht⟩ := h
  have : (code.drop k)[0]? = some b := by rw [← ht]; rfl
  simpa using this

theorem At.tail {b : UInt8} {c : List UInt8} (h : At code k (b :: c)) : At code (k + 1) c :=
  (At.append (c := [b]) h).2

theorem codeAddr_add (k n : ℕ) : codeAddr (k + n) = codeAddr k + UInt8.ofNat n := by
  rw [codeAddr, codeAddr, UInt8.ofNat_add, UInt8.add_assoc]

theorem codeAddr_toNat (h : 8 + k < 256) : (codeAddr k).toNat = 8 + k := by
  rw [codeAddr, UInt8.toNat_add, UInt8.toNat_ofNat']
  simp only [instructionStart, UInt8.reduceToNat]
  omega

theorem LoadedAt.head {p b : UInt8} {c : List UInt8} {m : Memory} (h : LoadedAt p (b :: c) m) : m p = b := by
  have h₀ : m (p + 0) = b := h 0 b rfl
  rwa [UInt8.add_zero] at h₀

theorem LoadedAt.append {p : UInt8} {c c' : List UInt8} {m : Memory} (h : LoadedAt p (c ++ c') m) :
    LoadedAt p c m ∧ LoadedAt (p + UInt8.ofNat c.length) c' m := by
  constructor
  · intro k b hk
    have hlt : k < c.length := (List.getElem?_eq_some_iff.mp hk).1
    exact h k b (by rwa [List.getElem?_append_left hlt])
  · intro k b hk
    rw [UInt8.add_assoc, ← UInt8.ofNat_add]
    refine h _ b ?_
    rwa [List.getElem?_append_right (Nat.le_add_right _ _), Nat.add_sub_cancel_left]

theorem Loaded.chunk {c : List UInt8} {m : Memory} (hl : Loaded code m) (h : At code k c) :
    LoadedAt (codeAddr k) c m := by
  obtain ⟨t, ht⟩ := h
  intro i b hi
  have hlt : i < c.length := (List.getElem?_eq_some_iff.mp hi).1
  rw [← codeAddr_add]
  refine hl (k + i) b ?_
  rwa [← List.getElem?_drop, ← ht, List.getElem?_append_left hlt]

end Chunks

/-! ## Cycles -/

section CyclesAt

variable {p sp : UInt8} {m : Memory}

theorem cycle_push_at {a : UInt8} (h : LoadedAt p [opPush, a] m) : cycle ⟨p, sp, m, none⟩ =
    some (.running ⟨p + 2, sp - 1, m.set sp (m a), none⟩) := by
  have harg : m (p + 1) = a := h 1 a rfl
  simp only [cycle, h.head]
  exact congrArg (fun b => some (Outcome.running (push _ (m b)))) harg

theorem cycle_pushi_at {b : UInt8} (h : LoadedAt p [opPushi, b] m) : cycle ⟨p, sp, m, none⟩ =
    some (.running ⟨p + 2, sp - 1, m.set sp b, none⟩) := by
  have harg : m (p + 1) = b := h 1 b rfl
  simp only [cycle, h.head]
  exact congrArg (fun b => some (Outcome.running (push _ b))) harg

/-- A binary operation on the operands at `sp` and, above it on the stack, at `sp - 1`. -/
theorem cycle_binary_at {op a b : UInt8} (hop : op ∈ binaryOps) (h : LoadedAt p [op] m) (ha : m sp = a)
    (hb : m (sp - 1) = b) : cycle ⟨p, sp - 1 - 1, m, none⟩ =
      match applyOp op a b with
      | none => none
      | some (.error e) => some (.halted ⟨p, sp, m.set sp 0, some e⟩)
      | some (.ok v) => some (.running ⟨p + 1, sp - 1, m.set sp v, none⟩) := by
  have h₁ : op ≠ opHalt := ne_of_mem_of_not_mem hop (by decide)
  have h₂ : op ≠ opPush := ne_of_mem_of_not_mem hop (by decide)
  have h₃ : op ≠ opPushi := ne_of_mem_of_not_mem hop (by decide)
  have h₄ : op ≠ opPop := ne_of_mem_of_not_mem hop (by decide)
  have hs₁ : sp - 1 - 1 + 1 = sp - 1 := UInt8.sub_add_cancel _ _
  have hs₂ : sp - 1 - 1 + 2 = sp := by
    show sp - 1 - 1 + (1 + 1) = sp
    rw [← UInt8.add_assoc, hs₁, UInt8.sub_add_cancel]
  have hcycle : cycle ⟨p, sp - 1 - 1, m, none⟩ = binary ⟨p, sp - 1 - 1, m, none⟩ op := by
    simp only [cycle, h.head, if_neg h₁, if_neg h₂, if_neg h₃, if_neg h₄, if_pos hop]
  rw [hcycle]
  rcases happ : applyOp op a b with _ | (e | v) <;> simp only [binary, hs₁, hs₂, ha, hb, happ]

end CyclesAt

section Cycles

variable {code : List UInt8} {k : ℕ} {sp : UInt8} {m : Memory} (hl : Loaded code m)
include hl

theorem cycle_pushi {b : UInt8} (h : At code k [opPushi, b]) : cycle ⟨codeAddr k, sp, m, none⟩ =
    some (.running ⟨codeAddr (k + 2), sp - 1, m.set sp b, none⟩) := by
  rw [codeAddr_add]
  exact cycle_pushi_at (hl.chunk h)

theorem cycle_pop {a : UInt8} (h : At code k [opPop, a]) : cycle ⟨codeAddr k, sp, m, none⟩ =
    some (.running ⟨codeAddr (k + 2), sp + 1, m.set a (m (sp + 1)), none⟩) := by
  have hop := hl k _ h.head
  have harg := hl (k + 1) _ h.tail.head
  rw [codeAddr_add] at harg ⊢
  simp only [cycle, hop]
  exact congrArg (fun b => some (Outcome.running (State.mk _ _ (m.set b _) none))) harg

theorem cycle_jump {a : UInt8} (h : At code k [opJump, a]) : cycle ⟨codeAddr k, sp, m, none⟩ =
    some (.running ⟨a, sp, m, none⟩) := by
  have hop := hl k _ h.head
  have harg := hl (k + 1) _ h.tail.head
  rw [codeAddr_add] at harg
  simp only [cycle, hop]
  exact congrArg (fun b => some (Outcome.running (State.mk b _ _ none))) harg

theorem cycle_jeqz {a : UInt8} (h : At code k [opJeqz, a]) : cycle ⟨codeAddr k, sp, m, none⟩ =
    some (.running ⟨if m (sp + 1) = 0 then a else codeAddr (k + 2), sp + 1, m, none⟩) := by
  have hop := hl k _ h.head
  have harg := hl (k + 1) _ h.tail.head
  rw [codeAddr_add] at harg ⊢
  simp only [cycle, hop]
  exact congrArg (fun b => some (Outcome.running
    (State.mk (if m (sp + 1) = 0 then b else codeAddr k + 2) (sp + 1) m none))) harg

theorem cycle_halt (h : At code k [opHalt]) : cycle ⟨codeAddr k, sp, m, none⟩ =
    some (.halted ⟨codeAddr k, sp, m, none⟩) := by
  have hop := hl k _ h.head
  simp only [cycle, hop]
  rfl

theorem cycle_binary {op a b : UInt8} (hop : op ∈ binaryOps) (h : At code k [op]) (ha : m sp = a)
    (hb : m (sp - 1) = b) : cycle ⟨codeAddr k, sp - 1 - 1, m, none⟩ =
      match applyOp op a b with
      | none => none
      | some (.error e) => some (.halted ⟨codeAddr k, sp, m.set sp 0, some e⟩)
      | some (.ok v) => some (.running ⟨codeAddr (k + 1), sp - 1, m.set sp v, none⟩) := by
  rw [codeAddr_add]
  exact cycle_binary_at hop (hl.chunk h) ha hb

end Cycles

theorem BinOp.opcode_mem (op : BinOp) : op.opcode ∈ binaryOps := by
  cases op <;> decide

theorem applyOp_opcode (op : BinOp) (a b : UInt8) :
    applyOp op.opcode a b = (op.apply a b).map Except.ok := by
  cases op with
  | quo =>
    show (if b = 0 then none else some (Except.ok (a / b))) = _
    rw [BinOp.apply]
    split <;> rfl
  | _ => rfl

/-! ## Expressions -/

/-- Memory below the end of the code, and above the address `sp`, is as it was. -/
def Framed (code : List UInt8) (sp : UInt8) (m m' : Memory) : Prop :=
  ∀ a : UInt8, a.toNat < 8 + code.length ∨ sp.toNat < a.toNat → m' a = m a

theorem Framed.loaded {code : List UInt8} {sp : UInt8} {m m' : Memory} (h : Framed code sp m m')
    (hfit : 8 + code.length ≤ 256) (hl : Loaded code m) : Loaded code m' := by
  intro k b hk
  have hlt : k < code.length := (List.getElem?_eq_some_iff.mp hk).1
  rw [h _ (.inl (by rw [codeAddr_toNat (by omega)]; omega)), hl k b hk]

/-- Writing in the data area leaves the code alone. -/
theorem Loaded.set {code : List UInt8} {m : Memory} (hl : Loaded code m) (hfit : 8 + code.length ≤ 256)
    {a : UInt8} (ha : a.toNat < 8) (v : UInt8) : Loaded code (m.set a v) := by
  intro k b hk
  have hlt : k < code.length := (List.getElem?_eq_some_iff.mp hk).1
  have hne : codeAddr k ≠ a := fun heq => by
    have := congrArg UInt8.toNat heq
    rw [codeAddr_toNat (by omega)] at this
    omega
  exact (if_neg hne).trans (hl k b hk)

/-- The variables are at their addresses. -/
def Holds (names : List Text) (σ : Store) (m : Memory) : Prop :=
  ∀ z, Known names z → m (UInt8.ofNat (addr names z)) = σ z

theorem addr_toNat {names : List Text} (hn : names.length ≤ 5) {z : Text} (hz : Known names z) :
    (UInt8.ofNat (addr names z)).toNat = addr names z ∧ addr names z < 8 := by
  have := addr_lt hz
  rw [UInt8.toNat_ofNat']
  omega

theorem Framed.holds {code : List UInt8} {sp : UInt8} {m m' : Memory} {names : List Text} {σ : Store}
    (h : Framed code sp m m') (hn : names.length ≤ 5) (hσ : Holds names σ m) : Holds names σ m' := by
  intro z hz
  obtain ⟨h₁, h₂⟩ := addr_toNat hn hz
  rw [h _ (.inl (by omega)), hσ z hz]

/-- Every variable that is read or assigned is among `names`. -/
def Covers (names : List Text) (acc : List Access) : Prop :=
  ∀ z, .read z ∈ acc ∨ .write z ∈ acc → Known names z

theorem covers_append {names : List Text} {as bs : List Access} :
    Covers names (as ++ bs) ↔ Covers names as ∧ Covers names bs := by
  simp only [Covers, List.mem_append]
  constructor
  · exact fun h => ⟨fun z hz => h z (hz.imp .inl .inl), fun z hz => h z (hz.imp .inr .inr)⟩
  · rintro ⟨h₁, h₂⟩ z ((h | h) | (h | h))
    · exact h₁ z (.inl h)
    · exact h₂ z (.inl h)
    · exact h₁ z (.inr h)
    · exact h₂ z (.inr h)

/-- What the code of an expression does with its value, from the position `k` to `k'`. -/
def Pushes (code : List UInt8) (k k' : ℕ) (sp : UInt8) (m : Memory) (r : Option UInt8) : Prop :=
  match r with
  | none => Aborts cycle ⟨codeAddr k, sp, m, none⟩
  | some v => ∃ m', Reaches cycle ⟨codeAddr k, sp, m, none⟩ ⟨codeAddr k', sp - 1, m', none⟩ ∧
      m' sp = v ∧ Framed code sp m m'

/-- One of the `d` cells of an operand stack that grows down from `sp`. -/
def StackCell (sp : UInt8) (d : ℕ) (a : UInt8) : Prop := (sp - a).toNat < d

theorem StackCell.mono {sp a : UInt8} {d d' : ℕ} (h : StackCell sp d a) (hle : d ≤ d') :
    StackCell sp d' a := Nat.lt_of_lt_of_le h hle

/-- The stack above one operand. -/
theorem StackCell.of_pred {sp a : UInt8} {d : ℕ} (h : StackCell (sp - 1) d a) : StackCell sp (1 + d) a := by
  unfold StackCell at *
  rw [UInt8.toNat_sub, UInt8.toNat_sub, UInt8.toNat_one] at h
  rw [UInt8.toNat_sub]
  omega

theorem stackCell_self {sp : UInt8} {d : ℕ} (h : 0 < d) : StackCell sp d sp := by
  rwa [StackCell, UInt8.sub_self]

theorem not_stackCell_pred {sp : UInt8} {d : ℕ} (h : d < 256) : ¬ StackCell (sp - 1) d sp := by
  have hsp := sp.toNat_lt
  rw [StackCell, UInt8.toNat_sub, UInt8.toNat_sub, UInt8.toNat_one]
  omega

/-- In the layout of `runVM` the stack cells are the ones from `sp` down. -/
theorem not_stackCell_iff {sp a : UInt8} {d : ℕ} (hd : d ≤ sp.toNat + 1) :
    ¬ StackCell sp d a ↔ a.toNat + d ≤ sp.toNat ∨ sp.toNat < a.toNat := by
  have hsp := sp.toNat_lt
  have ha := a.toNat_lt
  rw [StackCell, UInt8.toNat_sub]
  omega

/-- Memory is as it was outside the `d` stack cells from `sp` down. -/
def Kept (sp : UInt8) (d : ℕ) (m m' : Memory) : Prop := ∀ a, ¬ StackCell sp d a → m' a = m a

theorem Kept.set {sp : UInt8} {d : ℕ} (h : 0 < d) (m : Memory) (v : UInt8) : Kept sp d m (m.set sp v) := by
  intro a ha
  refine if_neg fun heq => ha ?_
  subst heq
  exact stackCell_self h

theorem Kept.trans {sp : UInt8} {d : ℕ} {m m₁ m₂ : Memory} (h : Kept sp d m m₁) (h' : Kept sp d m₁ m₂) :
    Kept sp d m m₂ := fun a ha => (h' a ha).trans (h a ha)

theorem Kept.mono {sp : UInt8} {d d' : ℕ} {m m' : Memory} (h : Kept sp d m m') (hle : d ≤ d') :
    Kept sp d' m m' := fun a ha => h a fun hc => ha (hc.mono hle)

theorem Kept.of_pred {sp : UInt8} {d : ℕ} {m m' : Memory} (h : Kept (sp - 1) d m m') :
    Kept sp (1 + d) m m' := fun a ha => h a fun hc => ha hc.of_pred

/-- What the code of an expression does with its value, from the address `p` to `p'`. -/
def PushesAt (p p' sp : UInt8) (d : ℕ) (m : Memory) (r : Option UInt8) : Prop :=
  match r with
  | none => Aborts cycle ⟨p, sp, m, none⟩
  | some v => ∃ m', Reaches cycle ⟨p, sp, m, none⟩ ⟨p', sp - 1, m', none⟩ ∧ m' sp = v ∧ Kept sp d m m'

/-- The code `c` of an expression stands at `p`, what it reads is at the addresses `loc`, and `d` stack cells
from `sp` down are neither. -/
structure Placed (c : List UInt8) (reads : List Access) (d : ℕ) (loc : Text → ℕ) (σ : Store) (p sp : UInt8)
    (m : Memory) : Prop where
  loaded : LoadedAt p c m
  holds : ∀ z, .read z ∈ reads → m (UInt8.ofNat (loc z)) = σ z
  codeRoom : ∀ k < c.length, ¬ StackCell sp d (p + UInt8.ofNat k)
  varRoom : ∀ z, .read z ∈ reads → ¬ StackCell sp d (UInt8.ofNat (loc z))

section Placed

variable {c c' : List UInt8} {as bs : List Access} {d d' : ℕ} {loc : Text → ℕ} {σ : Store} {p sp : UInt8}
  {m m' : Memory}

theorem Placed.mono (h : Placed c as d loc σ p sp m) (hle : d' ≤ d) : Placed c as d' loc σ p sp m :=
  ⟨h.loaded, h.holds, fun k hk hc => h.codeRoom k hk (hc.mono hle),
    fun z hz hc => h.varRoom z hz (hc.mono hle)⟩

/-- The code of the second operand runs one cell further down. -/
theorem Placed.pred (h : Placed c as (1 + d) loc σ p sp m) : Placed c as d loc σ p (sp - 1) m :=
  ⟨h.loaded, h.holds, fun k hk hc => h.codeRoom k hk hc.of_pred, fun z hz hc => h.varRoom z hz hc.of_pred⟩

theorem Placed.kept (h : Placed c as d loc σ p sp m) (hk : Kept sp d m m') : Placed c as d loc σ p sp m' := by
  refine ⟨fun k b hb => ?_, fun z hz => ?_, h.codeRoom, h.varRoom⟩
  · have hlt : k < c.length := (List.getElem?_eq_some_iff.mp hb).1
    rw [hk _ (h.codeRoom k hlt), h.loaded k b hb]
  · rw [hk _ (h.varRoom z hz), h.holds z hz]

theorem Placed.append (h : Placed (c ++ c') (as ++ bs) d loc σ p sp m) :
    Placed c as d loc σ p sp m ∧ Placed c' bs d loc σ (p + UInt8.ofNat c.length) sp m := by
  obtain ⟨hl, hl'⟩ := h.loaded.append
  refine ⟨⟨hl, fun z hz => h.holds z (List.mem_append_left _ hz), fun k hk => h.codeRoom k ?_,
    fun z hz => h.varRoom z (List.mem_append_left _ hz)⟩, ⟨hl', fun z hz =>
    h.holds z (List.mem_append_right _ hz), fun k hk => ?_, fun z hz =>
    h.varRoom z (List.mem_append_right _ hz)⟩⟩
  · rw [List.length_append]
    omega
  · rw [UInt8.add_assoc, ← UInt8.ofNat_add]
    refine h.codeRoom _ ?_
    rw [List.length_append]
    omega

/-- Room for code leaves at most 255 cells to the stack. -/
theorem Placed.depth_lt (h : Placed c as d loc σ p sp m) (hc : c ≠ []) : d < 256 := by
  have h₀ := h.codeRoom 0 (List.length_pos_iff.mpr hc)
  rw [StackCell] at h₀
  exact Nat.lt_of_le_of_lt (Nat.not_lt.mp h₀) (UInt8.toNat_lt _)

end Placed

theorem PushesAt.mono {p p' sp : UInt8} {d d' : ℕ} {m : Memory} {r : Option UInt8}
    (h : PushesAt p p' sp d m r) (hle : d ≤ d') : PushesAt p p' sp d' m r := by
  cases r with
  | none => exact h
  | some v =>
    obtain ⟨m', hreach, hm, hk⟩ := h
    exact ⟨m', hreach, hm, hk.mono hle⟩

/-- Two operands, the second one cell further down, and the operation on them. -/
theorem PushesAt.binary {p p₁ p₂ sp : UInt8} {d d' : ℕ} {m : Memory} {op : BinOp} {x y : Option UInt8}
    (hle : 1 + d' ≤ d) (hd : d < 256) (hl : PushesAt p p₁ sp d m x)
    (hr : ∀ m₁, Kept sp d m m₁ → PushesAt p₁ p₂ (sp - 1) d' m₁ y)
    (hop : ∀ m₂, Kept sp d m m₂ → LoadedAt p₂ [op.opcode] m₂) :
    PushesAt p (p₂ + 1) sp d m (do let a ← x; let b ← y; op.apply a b) := by
  cases x with
  | none => exact hl
  | some a =>
    obtain ⟨m₁, hreach₁, hm₁, hk₁⟩ := hl
    have hrgt := hr m₁ hk₁
    cases y with
    | none => exact hreach₁.aborts hrgt
    | some b =>
      obtain ⟨m₂, hreach₂, hm₂, hk₂⟩ := hrgt
      have hkept : Kept sp d m m₂ := hk₁.trans (hk₂.of_pred.mono hle)
      have hreach := hreach₁.trans hreach₂
      have hms : m₂ sp = a := (hk₂ sp (not_stackCell_pred (by omega))).trans hm₁
      have hcycle := cycle_binary_at op.opcode_mem (hop m₂ hkept) hms hm₂
      rw [applyOp_opcode] at hcycle
      show PushesAt p _ sp _ m (op.apply a b)
      cases hv : op.apply a b with
      | none =>
        rw [hv] at hcycle
        exact hreach.aborts (Aborts.step hcycle)
      | some v =>
        rw [hv] at hcycle
        exact ⟨m₂.set sp v, hreach.trans (Reaches.step hcycle), if_pos rfl,
          hkept.trans (Kept.set (by omega) m₂ v)⟩

/-- **The code of an expression pushes its value**, wherever it stands, and aborts where the expression
divides by zero. -/
theorem SExpr.execAt {labels : Label → UInt8} {loc : Text → ℕ} {σ : Store} (e : SExpr) :
    ∀ {p sp : UInt8} {m : Memory}, Placed (bytes labels (e.codeAt loc)) e.accesses e.depth loc σ p sp m →
      PushesAt p (p + UInt8.ofNat (size (e.codeAt loc))) sp e.depth m (e.eval σ) := by
  induction e with
  | lit n =>
    intro p sp m h
    exact ⟨m.set sp (UInt8.ofNat n), Reaches.step (cycle_pushi_at h.loaded), if_pos rfl,
      Kept.set Nat.one_pos m _⟩
  | var z =>
    intro p sp m h
    refine ⟨m.set sp (m (UInt8.ofNat (loc z))), Reaches.step (cycle_push_at h.loaded), ?_,
      Kept.set Nat.one_pos m _⟩
    exact (if_pos rfl).trans (h.holds z List.mem_cons_self)
  | paren e ih => exact ih
  | bin l op r ihl ihr =>
    intro p sp m h
    have hdepth : (SExpr.bin l op r).depth = max l.depth (1 + r.depth) := rfl
    have hcode : bytes labels ((SExpr.bin l op r).codeAt loc) =
        bytes labels (l.codeAt loc) ++ (bytes labels (r.codeAt loc) ++ [op.opcode]) := by
      rw [SExpr.codeAt, bytes_append, bytes_append, List.append_assoc]
      rfl
    rw [hcode, SExpr.accesses] at h
    obtain ⟨hl, h⟩ := h.append
    rw [← List.append_nil r.accesses] at h
    obtain ⟨hr, hop⟩ := h.append
    have hlt := hop.depth_lt (List.cons_ne_nil op.opcode [])
    rw [length_bytes] at hr hop
    rw [length_bytes] at hop
    have hp : p + UInt8.ofNat (size ((SExpr.bin l op r).codeAt loc)) =
        p + UInt8.ofNat (size (l.codeAt loc)) + UInt8.ofNat (size (r.codeAt loc)) + 1 := by
      rw [SExpr.codeAt, size_append, size_append, UInt8.ofNat_add, UInt8.ofNat_add, UInt8.add_assoc,
        UInt8.add_assoc, UInt8.add_assoc]
      rfl
    have hlft := (ihl (hl.mono (by omega))).mono (by omega : l.depth ≤ (SExpr.bin l op r).depth)
    rw [SExpr.eval, hp]
    exact PushesAt.binary (by omega) hlt hlft (fun m₁ hk => ihr ((hr.kept hk).mono (by omega)).pred)
      fun m₂ hk => (hop.kept hk).loaded

/-- In the layout of `runVM`. -/
theorem PushesAt.pushes {code : List UInt8} {k k' d : ℕ} {sp : UInt8} {m : Memory} {r : Option UInt8}
    (hroom : 8 + code.length + d ≤ sp.toNat + 1) (h : PushesAt (codeAddr k) (codeAddr k') sp d m r) :
    Pushes code k k' sp m r := by
  cases r with
  | none => exact h
  | some v =>
    obtain ⟨m', hreach, hm, hk⟩ := h
    refine ⟨m', hreach, hm, fun a ha => hk a ((not_stackCell_iff (by omega)).mpr ?_)⟩
    omega

theorem Framed.set {code : List UInt8} {sp : UInt8} {m : Memory} (v : UInt8)
    (h : 8 + code.length ≤ sp.toNat) : Framed code sp m (m.set sp v) := by
  intro a ha
  refine if_neg fun heq => ?_
  subst heq
  omega

theorem Framed.trans {code : List UInt8} {sp : UInt8} {m m₁ m₂ : Memory} (h : Framed code sp m m₁)
    (h' : Framed code sp m₁ m₂) : Framed code sp m m₂ :=
  fun a ha => (h' a ha).trans (h a ha)

/-- A frame that reaches further down is one for a higher stack pointer. -/
theorem Framed.mono {code : List UInt8} {sp sp' : UInt8} {m m' : Memory} (h : Framed code sp m m')
    (hle : sp.toNat ≤ sp'.toNat) : Framed code sp' m m' :=
  fun a ha => h a (ha.imp_right fun hlt => Nat.lt_of_le_of_lt hle hlt)

/-- **The code of an expression above the variables** pushes its value, as long as the stack stays above the
code. -/
theorem SExpr.exec {names : List Text} (hn : names.length ≤ 5) {labels : Label → UInt8} {code : List UInt8}
    {σ : Store} (e : SExpr) : ∀ {k : ℕ} {sp : UInt8} {m : Memory}, Loaded code m → Holds names σ m →
      At code k (bytes labels (e.code names)) → Covers names e.accesses →
      8 + code.length + e.depth ≤ sp.toNat + 1 →
      Pushes code k (k + size (e.code names)) sp m (e.eval σ) := by
  intro k sp m hl hσ hat hc hroom
  have hread : ∀ z, .read z ∈ e.accesses → Known names z := fun z hz => hc z (.inl hz)
  have hclear : ∀ a : UInt8, a.toNat < 8 + code.length → ¬ StackCell sp e.depth a :=
    fun a ha => (not_stackCell_iff (by omega)).mpr (.inl (by omega))
  rw [e.code_eq] at hat ⊢
  have hplaced : Placed (bytes labels (e.codeAt (addr names))) e.accesses e.depth (addr names) σ (codeAddr k)
      sp m := by
    refine ⟨hl.chunk hat, fun z hz => hσ z (hread z hz), fun i hi => hclear _ ?_, fun z hz => hclear _ ?_⟩
    · have hlen := hat.length_le
      have hsp := sp.toNat_lt
      rw [List.length_drop] at hlen
      rw [← codeAddr_add, codeAddr_toNat (by omega)]
      omega
    · obtain ⟨h₁, h₂⟩ := addr_toNat hn (hread z hz)
      omega
  refine PushesAt.pushes hroom ?_
  rw [codeAddr_add]
  exact e.execAt hplaced

/-! ## Statements -/

/-- Between two statements: the operand stack is empty, and memory holds the code and the store. -/
structure Ready (code : List UInt8) (names : List Text) (k : ℕ) (σ : Store) (s : State) : Prop where
  pc : s.pc = codeAddr k
  sp : s.sp = 0xff
  err : s.err = none
  loaded : Loaded code s.memory
  holds : Holds names σ s.memory

theorem Ready.eq {code : List UInt8} {names : List Text} {k : ℕ} {σ : Store} {s : State}
    (h : Ready code names k σ s) : s = ⟨codeAddr k, 0xff, s.memory, none⟩ := by
  rw [← h.pc, ← h.sp, ← h.err]

theorem Ready.jump {code : List UInt8} {names : List Text} {k k' : ℕ} {σ : Store} {s : State}
    (h : Ready code names k σ s) (hat : At code k [opJump, codeAddr k']) :
    ∃ s', Reaches cycle s s' ∧ Ready code names k' σ s' := by
  refine ⟨⟨codeAddr k', 0xff, s.memory, none⟩, ?_, rfl, rfl, rfl, h.loaded, h.holds⟩
  rw [h.eq]
  exact Reaches.step (cycle_jump h.loaded hat)

/-- What the machine does where the source goes on, returns or divides by zero: it gets to the position `k`,
halts with the value, or aborts. -/
def Leads (code : List UInt8) (names : List Text) (k : ℕ) (s : State) : Flow → Prop
  | .next σ => ∃ s', Reaches cycle s s' ∧ Ready code names k σ s'
  | .ret v => ∃ s', Halts cycle s s' ∧ s'.err = none ∧ s'.memory 0 = v
  | .fault => Aborts cycle s

section Leads

variable {code : List UInt8} {names : List Text} {k : ℕ} {s s' : State} {f : Flow}

theorem Leads.of_reaches (h : Reaches cycle s s') (hf : Leads code names k s' f) :
    Leads code names k s f := by
  cases f with
  | next σ =>
    obtain ⟨t, ht, hr⟩ := hf
    exact ⟨t, h.trans ht, hr⟩
  | ret v =>
    obtain ⟨t, ht, hr⟩ := hf
    exact ⟨t, h.halts ht, hr⟩
  | fault => exact h.aborts hf

theorem Leads.bind {k' : ℕ} {g : Store → Flow} (h : Leads code names k s f)
    (hg : ∀ σ s', Ready code names k σ s' → Leads code names k' s' (g σ)) :
    Leads code names k' s (f.bind g) := by
  cases f with
  | next σ =>
    obtain ⟨t, ht, hr⟩ := h
    exact (hg σ t hr).of_reaches ht
  | ret v => exact h
  | fault => exact h

end Leads

section Actions

variable {names : List Text} (hn : names.length ≤ 5) {labels : Label → UInt8} {code : List UInt8}
include hn

/-- A variable is written below the code, at the address of no other. -/
theorem Ready.assign {k : ℕ} {σ : Store} {m : Memory} {z : Text} (v : UInt8) (hfit : 8 + code.length ≤ 256)
    (hz : Known names z) (hl : Loaded code m) (hσ : Holds names σ m) :
    Ready code names k (σ.set z v) ⟨codeAddr k, 0xff, m.set (UInt8.ofNat (addr names z)) v, none⟩ := by
  obtain ⟨ha, ha'⟩ := addr_toNat hn hz
  refine ⟨rfl, rfl, rfl, hl.set hfit (by omega) v, fun y hy => ?_⟩
  by_cases hyz : y = z
  · subst hyz
    exact (if_pos rfl).trans (if_pos rfl).symm
  · have hne : UInt8.ofNat (addr names y) ≠ UInt8.ofNat (addr names z) := fun heq => by
      have := congrArg UInt8.toNat heq
      rw [(addr_toNat hn hy).1, ha] at this
      exact hyz (addr_inj hy this)
    exact ((if_neg hne).trans (hσ y hy)).trans (if_neg hyz).symm

/-- An expression between two statements. -/
theorem Ready.pushes {e : SExpr} {k : ℕ} {σ : Store} {s : State} (hs : Ready code names k σ s)
    (hat : At code k (bytes labels (e.code names))) (hc : Covers names e.accesses)
    (hroom : 8 + code.length + e.depth ≤ 256) :
    Pushes code k (k + size (e.code names)) 0xff s.memory (e.eval σ) :=
  e.exec hn hs.loaded hs.holds hat hc (show _ ≤ (0xff : UInt8).toNat + 1 from hroom)

theorem Action.exec {a : Action} {k : ℕ} {σ : Store} {s : State} (hs : Ready code names k σ s)
    (hat : At code k (bytes labels (a.code names))) (hc : Covers names a.accesses)
    (hroom : 8 + code.length + a.depth ≤ 256) :
    Leads code names (k + size (a.code names)) s (a.run σ) := by
  rw [hs.eq]
  cases a with
  | assign z define e =>
    obtain ⟨hce, hcz⟩ := covers_append.mp hc
    have hz : Known names z := hcz z (.inr (by simp))
    rw [Action.code, bytes_append] at hat
    obtain ⟨hat, hatpop⟩ := hat.append
    rw [length_bytes] at hatpop
    have hpush := hs.pushes hn hat hce hroom
    rw [Action.code, size_append, Action.run, SExpr.bind]
    cases hv : e.eval σ with
    | none =>
      rw [hv] at hpush
      exact hpush
    | some v =>
      rw [hv] at hpush
      obtain ⟨m', hreach, hm, hf⟩ := hpush
      have hl' := hf.loaded (by omega) hs.loaded
      refine ⟨_, hreach.trans (Reaches.step (cycle_pop hl' hatpop)), ?_⟩
      rw [← Nat.add_assoc]
      have := Ready.assign hn (k := k + size (e.code names) + 2) v (by omega) hz hl' (hf.holds hn hs.holds)
      rw [← hm] at this ⊢
      exact this
  | ret e =>
    rw [Action.code, bytes_append] at hat
    obtain ⟨hat, hatpop⟩ := hat.append
    rw [length_bytes] at hatpop
    have hpush := hs.pushes hn hat hc hroom
    rw [Action.run, SExpr.bind]
    cases hv : e.eval σ with
    | none =>
      rw [hv] at hpush
      exact hpush
    | some v =>
      rw [hv] at hpush
      obtain ⟨m', hreach, hm, hf⟩ := hpush
      have hl' := hf.loaded (by omega) hs.loaded
      obtain ⟨hatpop, hathalt⟩ := At.append (c := [opPop, 0]) hatpop
      have hl'' : Loaded code (m'.set 0 (m' 0xff)) := hl'.set (by omega) (by decide) _
      exact ⟨_, (hreach.trans (Reaches.step (cycle_pop hl' hatpop))).halts
        (Halts.step (cycle_halt hl'' hathalt)), rfl, hm⟩

theorem runActions_exec {as : List Action} : ∀ {k : ℕ} {σ : Store} {s : State}, Ready code names k σ s →
    At code k (bytes labels (actionsCode names as)) → Covers names (actionsAccesses as) →
    8 + code.length + actionsDepth as ≤ 256 →
    Leads code names (k + size (actionsCode names as)) s (runActions as σ) := by
  induction as with
  | nil => exact fun hs _ _ _ => ⟨_, Reaches.refl cycle _, hs⟩
  | cons a as ih =>
    intro k σ s hs hat hc hroom
    have hd : actionsDepth (a :: as) = max a.depth (actionsDepth as) := rfl
    obtain ⟨hca, hcas⟩ := covers_append.mp (show Covers names (a.accesses ++ actionsAccesses as) from hc)
    rw [show actionsCode names (a :: as) = a.code names ++ actionsCode names as from rfl] at hat ⊢
    rw [bytes_append] at hat
    obtain ⟨hata, hatas⟩ := hat.append
    rw [length_bytes] at hatas
    rw [size_append, ← Nat.add_assoc]
    exact (Action.exec hn hs hata hca (by omega)).bind fun σ' s' hs' => ih hs' hatas hcas (by omega)

end Actions

end Csapp.Compiler
