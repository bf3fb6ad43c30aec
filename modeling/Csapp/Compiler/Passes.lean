import Csapp.Compiler.StackVm

/-!
# Compiler.Passes — where the assembler puts instructions and labels

`Assembles` is what an assembler into 256 bytes owes to a text of well-formed lines: an instruction starts
where the sizes of the ones before it end, a jump goes to the instruction behind its label, and a text that
has no such code is an error.  `assemble` knows one error, the unknown operation: it gives what it owes for
the texts with an unknown operation, and for those whose jumps name defined labels and whose code fits
(`assembles_iff`).
-/

namespace Csapp.Compiler

open Csapp.Lib

/-! ## The assembly language -/

inductive Operand
  | none
  | number
  | label
  deriving DecidableEq

def Operand.size : Operand → UInt8
  | .none => 1
  | .number => 2
  | .label => 2

/-- The operations with their operands and the opcodes of the machine. -/
def operations : List (Text × (Operand × UInt8)) :=
  [("push".toList, .number, opPush), ("pushi".toList, .number, opPushi), ("pop".toList, .number, opPop),
   ("add".toList, .none, opAdd), ("sub".toList, .none, opSub), ("mul".toList, .none, opMul),
   ("div".toList, .none, opDiv), ("eq".toList, .none, opEq), ("lt".toList, .none, opLt),
   ("gt".toList, .none, opGt), ("neq".toList, .none, opNeq), ("leq".toList, .none, opLeq),
   ("geq".toList, .none, opGeq), ("jump".toList, .label, opJump), ("jeqz".toList, .label, opJeqz),
   ("halt".toList, .none, opHalt)]

def operation (op : Text) : Option (Operand × UInt8) := operations.lookup op

/-- The lines of a text, each as its parts. -/
def parsed (asm : Text) : List (List Text) := ((trimSpace asm).splitOn '\n').map lineParts

def opOf (parts : List Text) : Text := parts.headD []

def IsLabel (parts : List Text) : Prop := opOf parts = "label".toList

instance (parts : List Text) : Decidable (IsLabel parts) :=
  inferInstanceAs (Decidable (opOf parts = "label".toList))

/-- The operand that the operation needs is there: a label, or a number in the range of `int`. -/
structure WellFormed (parts : List Text) : Prop where
  label : IsLabel parts → ∃ l, parts[1]? = some l
  number : ∀ c, operation (opOf parts) = some (.number, c) → ∃ s b, parts[1]? = some s ∧ mem s = some b
  target : ∀ c, operation (opOf parts) = some (.label, c) → ∃ l, parts[1]? = some l

theorem wellFormed_iff {parts : List Text} :
    (IsLabel parts → parts[1]?.isSome = true) ∧
      (match operation (opOf parts) with
        | some (.number, _) => (parts[1]? >>= mem).isSome
        | some (.label, _) => parts[1]?.isSome
        | _ => true) = true ↔ WellFormed parts := by
  constructor
  · rintro ⟨hlabel, hop⟩
    refine ⟨fun h => Option.isSome_iff_exists.mp (hlabel h), fun c h => ?_, fun c h => ?_⟩
    · rw [h] at hop
      obtain ⟨b, hb⟩ := Option.isSome_iff_exists.mp hop
      obtain ⟨s, hs, hb⟩ := Option.bind_eq_some_iff.mp hb
      exact ⟨s, b, hs, hb⟩
    · rw [h] at hop
      exact Option.isSome_iff_exists.mp hop
  · intro h
    refine ⟨fun hl => Option.isSome_iff_exists.mpr (h.label hl), ?_⟩
    split
    · next c hop =>
      obtain ⟨s, b, hs, hb⟩ := h.number c hop
      exact Option.isSome_iff_exists.mpr ⟨b, Option.bind_eq_some_iff.mpr ⟨s, hs, hb⟩⟩
    · next c hop => exact Option.isSome_iff_exists.mpr (h.target c hop)
    · rfl

instance : DecidablePred WellFormed := fun _ => decidable_of_iff _ wellFormed_iff

def Unknown (parts : List Text) : Prop := ¬ IsLabel parts ∧ instructionSize (opOf parts) = none

/-! ## What the assembler owes -/

/-- A label takes no room. -/
def lineSize (parts : List Text) : ℕ :=
  match instructionSize (opOf parts) with
  | none => 0
  | some size => size.toNat

/-- Where the code of the line `i` starts. -/
def start (ls : List (List Text)) (i : ℕ) : ℕ := ((ls.take i).map lineSize).sum

def codeSize (ls : List (List Text)) : ℕ := (ls.map lineSize).sum

/-- The line `k` defines the label `l`. -/
def Defines (ls : List (List Text)) (k : ℕ) (l : Text) : Prop :=
  ∃ parts, ls[k]? = some parts ∧ IsLabel parts ∧ parts[1]? = some l

def LastDef (ls : List (List Text)) (k : ℕ) (l : Text) : Prop :=
  Defines ls k l ∧ ∀ k', Defines ls k' l → k' ≤ k

/-- The line `j` has the first instruction behind the line `k`. -/
structure Follows (ls : List (List Text)) (k j : ℕ) : Prop where
  lt : k < j
  instr : ∃ parts, ls[j]? = some parts ∧ ¬ IsLabel parts
  first : ∀ i, k < i → i < j → ∃ parts, ls[i]? = some parts ∧ IsLabel parts

/-- The code, to be loaded from address 8 on. -/
structure Laid (ls : List (List Text)) (bc : List UInt8) : Prop where
  length : bc.length = codeSize ls
  starts : ∀ i parts kind c, ls[i]? = some parts → operation (opOf parts) = some (kind, c) →
    bc[start ls i]? = some c
  numbers : ∀ i parts c s, ls[i]? = some parts → operation (opOf parts) = some (.number, c) →
    parts[1]? = some s → bc[start ls i + 1]? = mem s
  jumps : ∀ i parts c l k j, ls[i]? = some parts → operation (opOf parts) = some (.label, c) →
    parts[1]? = some l → LastDef ls k l → Follows ls k j →
    ∃ b, bc[start ls i + 1]? = some b ∧ b.toNat = 8 + start ls j

/-- Every jump names a label that some line defines. -/
def LabelsDefined (ls : List (List Text)) : Prop :=
  ∀ parts ∈ ls, ∀ c l, operation (opOf parts) = some (.label, c) → parts[1]? = some l →
    ∃ k, Defines ls k l

/-- What there is no code for. -/
def Rejected (ls : List (List Text)) : Prop :=
  (∃ parts ∈ ls, Unknown parts) ∨ ¬ LabelsDefined ls ∨ 248 < codeSize ls

def Assembles (asm : Text) : Prop :=
  (Rejected (parsed asm) → ∃ e, assemble asm = some (.error e)) ∧
    (¬ Rejected (parsed asm) → ∃ bc, assemble asm = some (.ok bc) ∧ Laid (parsed asm) bc)

/-! ## Lines -/

theorem lookup_map {α β γ : Type} [BEq α] (f : β → γ) (k : α) (l : List (α × β)) :
    (l.map fun p => (p.1, f p.2)).lookup k = (l.lookup k).map f := by
  induction l with
  | nil => rfl
  | cons p l ih =>
    rw [List.map_cons, List.lookup_cons, List.lookup_cons, ih]
    split <;> rfl

/-- The first pass knows the operations that the second one encodes. -/
theorem instructionSize_eq (op : Text) : instructionSize op = (operation op).map fun p => p.1.size :=
  lookup_map (fun p : Operand × UInt8 => p.1.size) op operations

theorem lineSize_eq (parts : List Text) : lineSize parts =
    match operation (opOf parts) with
    | none => 0
    | some (kind, _) => kind.size.toNat := by
  rw [lineSize, instructionSize_eq]
  cases operation (opOf parts) with
  | none => rfl
  | some p => rfl

theorem operation_label : operation "label".toList = none := rfl

theorem lineSize_label {parts : List Text} (h : IsLabel parts) : lineSize parts = 0 := by
  rw [lineSize_eq, h, operation_label]

/-- The bytes of a line, where it is well-formed. -/
def lineCode (labels : Labels) (parts : List Text) : List UInt8 :=
  match operation (opOf parts) with
  | none => []
  | some (.none, c) => [c]
  | some (.number, c) => c :: (parts[1]? >>= mem).toList
  | some (.label, c) => c :: (parts[1]?.map labels).toList

/-- What the second pass makes of an operation. -/
def Operand.encode (labels : Labels) (c : UInt8) (operand : Option Text) :
    Operand → Option (Except AsmError (List UInt8))
  | .none => some (.ok [c])
  | .number => operand >>= mem >>= fun b => some (.ok [c, b])
  | .label => operand >>= fun l => some (.ok [c, labels l])

theorem encode_operation {op : Text} {kind : Operand} {c : UInt8} (h : operation op = some (kind, c))
    (labels : Labels) (rest : List Text) :
    encode labels (op :: rest) = kind.encode labels c rest[0]? := by
  obtain ⟨l₁, l₂, hmem, -⟩ := List.lookup_eq_some_iff.mp h
  have hmem : (op, kind, c) ∈ operations := by
    rw [hmem]
    exact List.mem_append_right _ List.mem_cons_self
  simp only [operations, List.mem_cons, Prod.mk.injEq, List.not_mem_nil, or_false] at hmem
  rcases hmem with ⟨rfl, rfl, rfl⟩ | ⟨rfl, rfl, rfl⟩ | ⟨rfl, rfl, rfl⟩ | ⟨rfl, rfl, rfl⟩ | ⟨rfl, rfl, rfl⟩ |
    ⟨rfl, rfl, rfl⟩ | ⟨rfl, rfl, rfl⟩ | ⟨rfl, rfl, rfl⟩ | ⟨rfl, rfl, rfl⟩ | ⟨rfl, rfl, rfl⟩ |
    ⟨rfl, rfl, rfl⟩ | ⟨rfl, rfl, rfl⟩ | ⟨rfl, rfl, rfl⟩ | ⟨rfl, rfl, rfl⟩ | ⟨rfl, rfl, rfl⟩ |
    ⟨rfl, rfl, rfl⟩ <;> rfl

theorem unknown_iff {parts : List Text} :
    Unknown parts ↔ ¬ IsLabel parts ∧ operation (opOf parts) = none := by
  rw [Unknown, instructionSize_eq, Option.map_eq_none_iff]

/-- A line that is no label and is known has an operation. -/
theorem operation_of_known {parts : List Text} (h : ¬ IsLabel parts) (hk : ¬ Unknown parts) :
    ∃ kind c, operation (opOf parts) = some (kind, c) := by
  cases hop : operation (opOf parts) with
  | none => exact absurd (unknown_iff.mpr ⟨h, hop⟩) hk
  | some p => exact ⟨p.1, p.2, rfl⟩

theorem instructionSize_of_operation {op : Text} {kind : Operand} {c : UInt8}
    (h : operation op = some (kind, c)) : instructionSize op = some kind.size := by
  rw [instructionSize_eq, h, Option.map_some]

theorem opOf_cons_of_operation {parts : List Text} {p : Operand × UInt8}
    (h : operation (opOf parts) = some p) : ∃ rest, parts = opOf parts :: rest := by
  cases parts with
  | nil => cases h
  | cons op rest => exact ⟨rest, rfl⟩

section Line

variable {labels : Labels} {parts : List Text} {kind : Operand} {c : UInt8}

theorem lineCode_none (h : operation (opOf parts) = some (.none, c)) : lineCode labels parts = [c] := by
  rw [lineCode, h]

theorem lineCode_number {s : Text} {b : UInt8} (h : operation (opOf parts) = some (.number, c))
    (hs : parts[1]? = some s) (hb : mem s = some b) : lineCode labels parts = [c, b] := by
  rw [lineCode, h]
  simp only [hs, Option.bind_eq_bind, Option.bind_some, hb, Option.toList_some]

theorem lineCode_target {l : Text} (h : operation (opOf parts) = some (.label, c))
    (hl : parts[1]? = some l) : lineCode labels parts = [c, labels l] := by
  rw [lineCode, h]
  simp only [hl, Option.map_some, Option.toList_some]

theorem lineCode_label (h : IsLabel parts) : lineCode labels parts = [] := by
  rw [lineCode, h, operation_label]

theorem length_lineCode (hwf : WellFormed parts) : (lineCode labels parts).length = lineSize parts := by
  cases hop : operation (opOf parts) with
  | none => rw [lineCode, lineSize_eq, hop, List.length_nil]
  | some p =>
    obtain ⟨kind, c⟩ := p
    rw [lineSize_eq, hop]
    cases kind with
    | none => rw [lineCode_none hop]; rfl
    | number =>
      obtain ⟨s, b, hs, hb⟩ := hwf.number c hop
      rw [lineCode_number hop hs hb]
      rfl
    | label =>
      obtain ⟨l, hl⟩ := hwf.target c hop
      rw [lineCode_target hop hl]
      rfl

theorem head_lineCode (h : operation (opOf parts) = some (kind, c)) :
    (lineCode labels parts)[0]? = some c := by
  cases kind with
  | none => rw [lineCode_none h]; rfl
  | number => rw [lineCode, h]; rfl
  | label => rw [lineCode, h]; rfl

/-- The second pass on a well-formed line of a known operation. -/
theorem encode_line (hwf : WellFormed parts) (hk : ¬ Unknown parts) :
    encode labels parts = some (.ok (lineCode labels parts)) := by
  by_cases hl : IsLabel parts
  · rw [lineCode_label hl]
    cases parts with
    | nil => cases hl
    | cons op rest =>
      have hop : op = "label".toList := hl
      rw [hop]
      rfl
  · obtain ⟨kind, c, hop⟩ := operation_of_known hl hk
    obtain ⟨rest, hparts⟩ := opOf_cons_of_operation hop
    have henc := encode_operation hop labels rest
    rw [← hparts] at henc
    have hrest : rest[0]? = parts[1]? := by
      rw [hparts]
      rfl
    rw [henc, hrest]
    cases kind with
    | none => rw [lineCode_none hop]; rfl
    | number =>
      obtain ⟨s, b, hs, hb⟩ := hwf.number c hop
      rw [lineCode_number hop hs hb, hs]
      show (mem s >>= fun b => some (Except.ok [c, b])) = _
      rw [hb]
      rfl
    | label =>
      obtain ⟨l, hl⟩ := hwf.target c hop
      rw [lineCode_target hop hl, hl]
      rfl

end Line

/-! ## The two passes -/

theorem start_cons (parts : List Text) (ls : List (List Text)) (i : ℕ) :
    start (parts :: ls) (i + 1) = lineSize parts + start ls i := by
  rw [start, List.take_succ_cons, List.map_cons, List.sum_cons, start]

theorem LastDef.of_cons {parts : List Text} {ls : List (List Text)} {k : ℕ} {l : Text}
    (h : LastDef (parts :: ls) (k + 1) l) : LastDef ls k l :=
  ⟨h.1, fun k' hk' => Nat.le_of_succ_le_succ (h.2 (k' + 1) hk')⟩

section FirstPass

variable {line : Text} {rest : List Text} {labels : Labels} {a : UInt8}

theorem firstPass_label {l : Text} (h : IsLabel (lineParts line)) (hl : (lineParts line)[1]? = some l) :
    firstPass (line :: rest) labels a = firstPass rest (labels.set l a) a := by
  have hop : (lineParts line).headD [] = "label".toList := h
  rw [firstPass]
  simp only [if_pos hop, hl]

theorem firstPass_size {size : UInt8} (h : ¬ IsLabel (lineParts line))
    (hs : instructionSize (opOf (lineParts line)) = some size) :
    firstPass (line :: rest) labels a = firstPass rest labels (a + size) := by
  have hop : (lineParts line).headD [] ≠ "label".toList := h
  have hsize : instructionSize ((lineParts line).headD []) = some size := hs
  rw [firstPass]
  simp only [if_neg hop, hsize]

theorem firstPass_invalid (h : Unknown (lineParts line)) :
    firstPass (line :: rest) labels a = some (.error ⟨opOf (lineParts line)⟩) := by
  have hop : (lineParts line).headD [] ≠ "label".toList := h.1
  have hsize : instructionSize ((lineParts line).headD []) = none := h.2
  rw [firstPass]
  simp only [if_neg hop, hsize]
  rfl

end FirstPass

/-- An unknown operation ends the first pass. -/
theorem firstPass_unknown {lines : List Text} (hwf : ∀ line ∈ lines, WellFormed (lineParts line))
    (h : ∃ line ∈ lines, Unknown (lineParts line)) :
    ∀ labels a, ∃ e, firstPass lines labels a = some (.error e) := by
  induction lines with
  | nil =>
    obtain ⟨line, hline, -⟩ := h
    cases hline
  | cons line rest ih =>
    intro labels a
    have hrest : ∀ l ∈ rest, WellFormed (lineParts l) := fun l hl => hwf l (List.mem_cons_of_mem _ hl)
    have hmore : ¬ Unknown (lineParts line) → ∃ l ∈ rest, Unknown (lineParts l) := by
      intro hk
      obtain ⟨l, hl, hu⟩ := h
      rcases List.mem_cons.mp hl with rfl | hl
      · exact absurd hu hk
      · exact ⟨l, hl, hu⟩
    by_cases hu : Unknown (lineParts line)
    · exact ⟨_, firstPass_invalid hu⟩
    by_cases hlabel : IsLabel (lineParts line)
    · obtain ⟨l, hl⟩ := (hwf line List.mem_cons_self).label hlabel
      rw [firstPass_label hlabel hl]
      exact ih hrest (hmore hu) _ _
    · obtain ⟨kind, c, hop⟩ := operation_of_known hlabel hu
      rw [firstPass_size hlabel (instructionSize_of_operation hop)]
      exact ih hrest (hmore hu) _ _

/-- **The first pass**: a label that is defined is at the start of what follows its last definition, and every
other one is as it was. -/
theorem firstPass_known {lines : List Text} (hwf : ∀ line ∈ lines, WellFormed (lineParts line))
    (hk : ∀ line ∈ lines, ¬ Unknown (lineParts line)) :
    ∀ labels a, ∃ out, firstPass lines labels a = some (.ok out) ∧
      (∀ l, (∀ k, ¬ Defines (lines.map lineParts) k l) → out l = labels l) ∧
      ∀ k l, LastDef (lines.map lineParts) k l →
        out l = a + UInt8.ofNat (start (lines.map lineParts) k) := by
  induction lines with
  | nil =>
    intro labels a
    refine ⟨labels, rfl, fun l _ => rfl, fun k l h => ?_⟩
    obtain ⟨parts, hparts, -⟩ := h.1
    cases hparts
  | cons line rest ih =>
    intro labels a
    have ih := ih (fun l hl => hwf l (List.mem_cons_of_mem _ hl)) fun l hl => hk l (List.mem_cons_of_mem _ hl)
    rw [List.map_cons]
    by_cases hlabel : IsLabel (lineParts line)
    · obtain ⟨l₀, hl₀⟩ := (hwf line List.mem_cons_self).label hlabel
      obtain ⟨out, hout, hnone, hlast⟩ := ih (labels.set l₀ a) a
      have hdef : Defines (lineParts line :: rest.map lineParts) 0 l₀ := ⟨_, rfl, hlabel, hl₀⟩
      refine ⟨out, ?_, fun l h => ?_, fun k l h => ?_⟩
      · rw [firstPass_label hlabel hl₀, hout]
      · have hne : l ≠ l₀ := fun heq => h 0 (heq ▸ hdef)
        rw [hnone l fun k hd => h (k + 1) hd]
        exact if_neg hne
      · cases k with
        | zero =>
          have hl : l = l₀ := by
            obtain ⟨parts, hparts, -, hl⟩ := h.1
            cases hparts
            exact Option.some.inj (hl.symm.trans hl₀)
          have hend : ∀ k, ¬ Defines (rest.map lineParts) k l := fun k hd =>
            Nat.not_succ_le_zero k (h.2 (k + 1) hd)
          rw [hnone l hend]
          exact (if_pos hl).trans (UInt8.add_zero a).symm
        | succ k =>
          rw [hlast k l h.of_cons, start_cons, lineSize_label hlabel, Nat.zero_add]
    · obtain ⟨kind, c, hop⟩ := operation_of_known hlabel (hk line List.mem_cons_self)
      obtain ⟨out, hout, hnone, hlast⟩ := ih labels (a + kind.size)
      refine ⟨out, ?_, fun l h => hnone l fun k hd => h (k + 1) hd, fun k l h => ?_⟩
      · rw [firstPass_size hlabel (instructionSize_of_operation hop), hout]
      · cases k with
        | zero =>
          obtain ⟨parts, hparts, hl, -⟩ := h.1
          cases hparts
          exact absurd hl hlabel
        | succ k =>
          have hline : lineSize (lineParts line) = kind.size.toNat := by rw [lineSize_eq, hop]
          rw [hlast k l h.of_cons, start_cons, hline, UInt8.ofNat_add, UInt8.ofNat_toNat, UInt8.add_assoc]

/-- **The second pass** puts the bytes of the lines one after the other. -/
theorem secondPass_known {lines : List Text} {labels : Labels}
    (hwf : ∀ line ∈ lines, WellFormed (lineParts line)) (hk : ∀ line ∈ lines, ¬ Unknown (lineParts line)) :
    ∀ bc, secondPass labels lines bc =
      some (.ok (bc ++ (lines.map lineParts).flatMap (lineCode labels))) := by
  induction lines with
  | nil =>
    intro bc
    rw [List.map_nil, List.flatMap_nil, List.append_nil]
    rfl
  | cons line rest ih =>
    intro bc
    have ih := ih (fun l hl => hwf l (List.mem_cons_of_mem _ hl)) fun l hl => hk l (List.mem_cons_of_mem _ hl)
    rw [secondPass, encode_line (hwf line List.mem_cons_self) (hk line List.mem_cons_self)]
    simp only [ih, List.map_cons, List.flatMap_cons, List.append_assoc]

theorem assemble_unknown {asm : Text} (hwf : ∀ parts ∈ parsed asm, WellFormed parts)
    (h : ∃ parts ∈ parsed asm, Unknown parts) : ∃ e, assemble asm = some (.error e) := by
  have hline : ∃ line ∈ (trimSpace asm).splitOn '\n', Unknown (lineParts line) := by
    obtain ⟨parts, hparts, hu⟩ := h
    obtain ⟨line, hline, rfl⟩ := List.mem_map.mp hparts
    exact ⟨line, hline, hu⟩
  obtain ⟨e, he⟩ := firstPass_unknown (fun line hl => hwf _ (List.mem_map_of_mem hl)) hline
    (fun _ => 0) instructionStart
  exact ⟨e, by rw [assemble, he]⟩

/-- Without an unknown operation there is code, whatever the jumps and the size are. -/
theorem assemble_known {asm : Text} (hwf : ∀ parts ∈ parsed asm, WellFormed parts)
    (hk : ∀ parts ∈ parsed asm, ¬ Unknown parts) :
    ∃ labels, assemble asm = some (.ok ((parsed asm).flatMap (lineCode labels))) ∧
      ∀ k l, LastDef (parsed asm) k l → labels l = instructionStart + UInt8.ofNat (start (parsed asm) k) := by
  have hwf : ∀ line ∈ (trimSpace asm).splitOn '\n', WellFormed (lineParts line) :=
    fun line hl => hwf _ (List.mem_map_of_mem hl)
  have hk : ∀ line ∈ (trimSpace asm).splitOn '\n', ¬ Unknown (lineParts line) :=
    fun line hl => hk _ (List.mem_map_of_mem hl)
  obtain ⟨labels, hfirst, -, hlast⟩ := firstPass_known hwf hk (fun _ => 0) instructionStart
  refine ⟨labels, ?_, hlast⟩
  simp only [assemble, hfirst]
  exact secondPass_known hwf hk []

/-! ## The layout -/

section Layout

variable {ls : List (List Text)} {parts : List Text} {i j k : ℕ}

theorem start_succ (h : ls[i]? = some parts) : start ls (i + 1) = start ls i + lineSize parts := by
  rw [start, List.take_add_one, h, Option.toList_some, List.map_append, List.sum_append, start]
  simp

theorem start_le (h : ls[i]? = some parts) : start ls i + lineSize parts ≤ codeSize ls := by
  have hsum : codeSize ls = start ls (i + 1) + ((ls.drop (i + 1)).map lineSize).sum := by
    rw [codeSize, start, ← List.sum_append, ← List.map_append, List.take_append_drop]
  rw [hsum, start_succ h]
  exact Nat.le_add_right _ _

/-- Between a label and the instruction that follows it there is no code. -/
theorem start_follows (h : Follows ls k j) (hk : ls[k]? = some parts) (hlabel : IsLabel parts) :
    start ls j = start ls k := by
  have hrun : ∀ n, k + 1 + n ≤ j → start ls (k + 1 + n) = start ls k := by
    intro n
    induction n with
    | zero =>
      intro _
      rw [Nat.add_zero, start_succ hk, lineSize_label hlabel, Nat.add_zero]
    | succ n ih =>
      intro hle
      obtain ⟨parts', hparts, hl⟩ := h.first (k + 1 + n) (by omega) (by omega)
      rw [← Nat.add_assoc, start_succ hparts, lineSize_label hl, Nat.add_zero, ih (by omega)]
  have hlt := h.lt
  have hj := hrun (j - (k + 1)) (by omega)
  rwa [show k + 1 + (j - (k + 1)) = j by omega] at hj

/-- The bytes of a line stand where the line starts. -/
theorem flatMap_start {f : List Text → List UInt8} (hf : ∀ parts ∈ ls, (f parts).length = lineSize parts)
    (hi : ls[i]? = some parts) {b : UInt8} (hb : (f parts)[j]? = some b) :
    (ls.flatMap f)[start ls i + j]? = some b := by
  induction ls generalizing i with
  | nil => cases hi
  | cons first rest ih =>
    rw [List.flatMap_cons]
    cases i with
    | zero =>
      cases Option.some.inj hi
      have hlt : j < (f parts).length := (List.getElem?_eq_some_iff.mp hb).1
      rw [start, List.take_zero, List.map_nil, List.sum_nil, Nat.zero_add, List.getElem?_append_left hlt, hb]
    | succ i =>
      have hlen := hf first List.mem_cons_self
      rw [start_cons, ← hlen, Nat.add_assoc, List.getElem?_append_right (Nat.le_add_right _ _),
        Nat.add_sub_cancel_left]
      exact ih (fun p hp => hf p (List.mem_cons_of_mem _ hp)) hi

theorem length_flatMap_lineCode {labels : Labels} (hwf : ∀ parts ∈ ls, WellFormed parts) :
    (ls.flatMap (lineCode labels)).length = codeSize ls := by
  rw [List.length_flatMap, codeSize]
  exact congrArg List.sum (List.map_congr_left fun parts hp => length_lineCode (hwf parts hp))

/-- **Code that fits is laid out as it should be.** -/
theorem laid_lineCode {labels : Labels} (hwf : ∀ parts ∈ ls, WellFormed parts)
    (hknown : ∀ parts ∈ ls, ¬ Unknown parts)
    (hlabels : ∀ k l, LastDef ls k l → labels l = instructionStart + UInt8.ofNat (start ls k))
    (hfit : codeSize ls ≤ 248) : Laid ls (ls.flatMap (lineCode labels)) := by
  have hf : ∀ parts ∈ ls, (lineCode labels parts).length = lineSize parts :=
    fun parts hp => length_lineCode (hwf parts hp)
  constructor
  · exact length_flatMap_lineCode hwf
  · intro i parts kind c hi hop
    exact flatMap_start hf hi (head_lineCode hop)
  · intro i parts c s hi hop hs
    obtain ⟨s', b, hs', hb⟩ := (hwf parts (List.mem_of_getElem? hi)).number c hop
    rw [hs] at hs'
    cases hs'
    rw [hb]
    refine flatMap_start hf hi ?_
    rw [lineCode_number hop hs hb]
    rfl
  · intro i parts c l k j hi hop hl hdef hfollows
    obtain ⟨line, hk, hlabel, -⟩ := hdef.1
    obtain ⟨next, hnext, hinstr⟩ := hfollows.instr
    refine ⟨labels l, ?_, ?_⟩
    · refine flatMap_start hf hi ?_
      rw [lineCode_target hop hl]
      rfl
    · have hmem : next ∈ ls := List.mem_of_getElem? hnext
      obtain ⟨kind, c', hop'⟩ := operation_of_known hinstr (hknown next hmem)
      have hpos : 1 ≤ lineSize next := by
        rw [lineSize_eq, hop']
        cases kind with
        | none => exact Nat.le_refl 1
        | number => exact Nat.le_succ 1
        | label => exact Nat.le_succ 1
      have hle := start_le hnext
      rw [hlabels k l hdef, ← start_follows hfollows hk hlabel, UInt8.toNat_add, UInt8.toNat_ofNat']
      simp only [instructionStart, UInt8.reduceToNat]
      omega

end Layout

/-! ## What the assembler gives -/

/-- **`assemble` gives what it owes** where an operation is unknown, and where every jump names a defined label
and the code fits: it never rejects an undefined label or code that is too long. -/
theorem assembles_iff (asm : Text) (hwf : ∀ parts ∈ parsed asm, WellFormed parts) :
    Assembles asm ↔ (∃ parts ∈ parsed asm, Unknown parts) ∨
      (LabelsDefined (parsed asm) ∧ codeSize (parsed asm) ≤ 248) := by
  by_cases hu : ∃ parts ∈ parsed asm, Unknown parts
  · exact ⟨fun _ => .inl hu, fun _ => ⟨fun _ => assemble_unknown hwf hu, fun hr => absurd (.inl hu) hr⟩⟩
  have hknown : ∀ parts ∈ parsed asm, ¬ Unknown parts := fun parts hp h => hu ⟨parts, hp, h⟩
  obtain ⟨labels, hasm, hlabels⟩ := assemble_known hwf hknown
  constructor
  · rintro ⟨hreject, -⟩
    have hno : ¬ Rejected (parsed asm) := by
      intro hr
      obtain ⟨e, he⟩ := hreject hr
      cases hasm.symm.trans he
    refine .inr ⟨?_, ?_⟩
    · by_contra h
      exact hno (.inr (.inl h))
    · by_contra h
      exact hno (.inr (.inr (Nat.not_le.mp h)))
  · rintro (h | ⟨hdef, hfit⟩)
    · exact absurd h hu
    · refine ⟨?_, fun _ => ⟨_, hasm, laid_lineCode hwf hknown hlabels hfit⟩⟩
      rintro (h | h | h)
      · exact absurd h hu
      · exact absurd hdef h
      · omega

theorem assembles_iff_sample : Assembles "jeqz l1\nlabel l1\nhalt".toList := by
  have hwf : ∀ parts ∈ parsed "jeqz l1\nlabel l1\nhalt".toList, WellFormed parts := by decide
  have hparsed : parsed "jeqz l1\nlabel l1\nhalt".toList =
      [["jeqz".toList, "l1".toList], ["label".toList, "l1".toList], ["halt".toList]] := by decide
  refine (assembles_iff _ hwf).mpr (.inr ⟨?_, by decide⟩)
  intro parts hp c l hop hl
  rw [hparsed] at hp ⊢
  have hdef : Defines [["jeqz".toList, "l1".toList], ["label".toList, "l1".toList], ["halt".toList]] 1
      "l1".toList := ⟨["label".toList, "l1".toList], rfl, rfl, rfl⟩
  rcases List.mem_cons.mp hp with rfl | hp
  · cases hl
    exact ⟨1, hdef⟩
  rcases List.mem_cons.mp hp with rfl | hp
  · cases hl
    exact ⟨1, hdef⟩
  · rw [List.mem_singleton.mp hp] at hl
    cases hl

/-- A jump to a label that no line defines goes to address 0, in the data area. -/
theorem undefined_label_assembled :
    (∀ parts ∈ parsed "jump end\nhalt".toList, WellFormed parts) ∧
      assemble "jump end\nhalt".toList = some (.ok [opJump, 0, opHalt]) ∧
      ¬ Assembles "jump end\nhalt".toList := by
  have hparsed : parsed "jump end\nhalt".toList = [["jump".toList, "end".toList], ["halt".toList]] := by decide
  have hasm : assemble "jump end\nhalt".toList = some (.ok [opJump, 0, opHalt]) := rfl
  refine ⟨by decide, hasm, fun h => ?_⟩
  have hreject : Rejected (parsed "jump end\nhalt".toList) := by
    refine .inr (.inl fun hdef => ?_)
    rw [hparsed] at hdef
    obtain ⟨k, parts, hk, hlabel, -⟩ := hdef _ List.mem_cons_self opJump "end".toList rfl rfl
    rcases List.mem_cons.mp (List.mem_of_getElem? hk) with rfl | hk
    · exact absurd hlabel (by decide)
    · rw [List.mem_singleton.mp hk] at hlabel
      exact absurd hlabel (by decide)
  obtain ⟨e, he⟩ := h.1 hreject
  cases hasm.symm.trans he

end Csapp.Compiler
