import Csapp.Compiler.Semantics
import Mathlib.Data.List.Basic

/-!
# Compiler.Table — the variable table as a list of names

A table that `compile` has set up holds `x` at 1, `y` at 2 and the other names from address 3 up in the order
in which they came (`tableOf`).  `locate` is the only function that changes it, and adds one name at the end
(`locate_tableOf`).
-/

namespace Csapp.Compiler

open Csapp.Lib

/-! ## Steps of an evaluation -/

section Eval

variable {α β : Type} {m : Eval α} {f : α → Eval β} {T T' : Table}

theorem Eval.bind_ok {a : α} (h : m T = some (.ok a, T')) : (m >>= f) T = f a T' := by
  show StateT.bind m (ExceptT.bindCont f) T = f a T'
  rw [StateT.bind, h]
  rfl

theorem Eval.bind_error {e : Error} (h : m T = some (.error e, T')) :
    (m >>= f) T = some (.error e, T') := by
  show StateT.bind m (ExceptT.bindCont f) T = _
  rw [StateT.bind, h]
  rfl

theorem Eval.bind_none (h : m T = none) : (m >>= f) T = none := by
  show StateT.bind m (ExceptT.bindCont f) T = _
  rw [StateT.bind, h]
  rfl

theorem Eval.pure_apply (a : α) (T : Table) : (pure a : Eval α) T = some (.ok a, T) := rfl

theorem reading_apply (g : Table → Except Error α) (T : Table) : reading g T = some (g T, T) := rfl

end Eval

/-! ## Addresses -/

/-- The address of a name among `names`. -/
def addr (names : List Text) (z : Text) : ℕ :=
  if z = nameX then 1 else if z = nameY then 2 else 3 + names.idxOf z

/-- A parameter or one of `names`. -/
def Known (names : List Text) (z : Text) : Prop := z = nameX ∨ z = nameY ∨ z ∈ names

instance (names : List Text) (z : Text) : Decidable (Known names z) :=
  inferInstanceAs (Decidable (z = nameX ∨ z = nameY ∨ z ∈ names))

def tableOf (names : List Text) : Table :=
  ⟨fun z => if Known names z then some (addr names z) else none, 3 + names.length⟩

theorem tableOf_known {names : List Text} {z : Text} (h : Known names z) :
    (tableOf names).varToMem z = some (addr names z) := if_pos h

theorem tableOf_unknown {names : List Text} {z : Text} (h : ¬ Known names z) :
    (tableOf names).varToMem z = none := if_neg h

theorem Known.mono {names names' : List Text} {z : Text} (h : Known names z) (hp : names <+: names') :
    Known names' z := h.imp_right (Or.imp_right fun hz => hp.subset hz)

/-- Names that come later leave an address as it is. -/
theorem addr_stable {names names' : List Text} {z : Text} (h : Known names z)
    (hp : names <+: names') : addr names' z = addr names z := by
  unfold addr
  split
  · rfl
  · split
    · rfl
    · next hx hy =>
      have hz : z ∈ names := (h.resolve_left hx).resolve_left hy
      rw [hp.idxOf_eq_of_mem hz]

theorem addr_pos (names : List Text) (z : Text) : 1 ≤ addr names z := by
  unfold addr
  split
  · exact Nat.le_refl 1
  · split <;> omega

theorem addr_lt {names : List Text} {z : Text} (h : Known names z) : addr names z < 3 + names.length := by
  unfold addr
  split
  · omega
  · split
    · omega
    · next hx hy =>
      have := List.idxOf_lt_length_of_mem ((h.resolve_left hx).resolve_left hy)
      omega

theorem addr_inj {names : List Text} {z z' : Text} (h : Known names z)
    (heq : addr names z = addr names z') : z = z' := by
  unfold addr at heq
  split at heq
  · next hx =>
    split at heq
    · next hx' => rw [hx, hx']
    · split at heq <;> omega
  · next hx =>
    split at heq
    · next hy =>
      split at heq
      · omega
      · split at heq
        · next hy' => rw [hy, hy']
        · omega
    · next hy =>
      split at heq
      · omega
      · split at heq
        · omega
        · have hz : z ∈ names := (h.resolve_left hx).resolve_left hy
          exact (List.idxOf_inj hz).mp (by omega)

/-! ## Adding names -/

theorem addName_of_known {names : List Text} {z : Text} (h : Known names z) : addName names z = names :=
  if_pos h

theorem addName_of_unknown {names : List Text} {z : Text} (h : ¬ Known names z) :
    addName names z = names ++ [z] := if_neg h

theorem prefix_addName (names : List Text) (z : Text) : names <+: addName names z := by
  by_cases h : Known names z
  · exact (addName_of_known h).symm ▸ List.prefix_refl names
  · rw [addName_of_unknown h]
    exact List.prefix_append names [z]

theorem known_addName (names : List Text) (z : Text) : Known (addName names z) z := by
  by_cases h : Known names z
  · rwa [addName_of_known h]
  · rw [addName_of_unknown h]
    exact .inr (.inr (by simp))

/-- A new name gets the next address. -/
theorem addr_append_self {names : List Text} {z : Text} (h : ¬ Known names z) :
    addr (names ++ [z]) z = 3 + names.length := by
  unfold addr
  rw [if_neg fun hx => h (.inl hx), if_neg fun hy => h (.inr (.inl hy)),
    List.idxOf_append_of_notMem fun hm => h (.inr (.inr hm))]
  simp

theorem tableOf_append {names : List Text} {z : Text} (h : ¬ Known names z) :
    { (tableOf names).set z (3 + names.length) with nextMemoryLocation := 3 + names.length + 1 } =
      tableOf (names ++ [z]) := by
  have hp : names <+: names ++ [z] := List.prefix_append names [z]
  have hmem : (fun n => if n = z then some (3 + names.length) else (tableOf names).varToMem n) =
      (tableOf (names ++ [z])).varToMem := by
    funext n
    by_cases hn : n = z
    · subst hn
      rw [if_pos rfl, tableOf_known (.inr (.inr (by simp))), addr_append_self h]
    · rw [if_neg hn]
      by_cases hk : Known names n
      · rw [tableOf_known hk, tableOf_known (hk.mono hp), addr_stable hk hp]
      · rw [tableOf_unknown hk, tableOf_unknown]
        rintro (hx | hy | hm)
        · exact hk (.inl hx)
        · exact hk (.inr (.inl hy))
        · rcases List.mem_append.mp hm with hm | hm
          · exact hk (.inr (.inr hm))
          · exact hn (List.mem_singleton.mp hm)
  simp only [Table.set, hmem]
  simp [tableOf, Nat.add_assoc]

/-- **`locate` adds the name**, if it is new, and gives its address. -/
theorem locate_tableOf (names : List Text) (z : Text) : locate z (tableOf names) =
    some (.ok (addr (addName names z) z), tableOf (addName names z)) := by
  by_cases h : Known names z
  · simp only [locate, tableOf_known h, addName_of_known h]
  · simp only [locate, tableOf_unknown h, addName_of_unknown h, addr_append_self h]
    exact congrArg some (Prod.ext rfl (tableOf_append h))

/-- The first assignments of `compile` change nothing in a table that an earlier call has set up. -/
theorem tableOf_set_params (names : List Text) :
    ((tableOf names).set nameX 1).set nameY 2 = tableOf names := by
  have hmem : (((tableOf names).set nameX 1).set nameY 2).varToMem = (tableOf names).varToMem := by
    funext n
    by_cases hy : n = nameY
    · subst hy
      rfl
    · by_cases hx : n = nameX
      · subst hx
        rfl
      · simp [Table.set, hx, hy]
  exact congrArg (Table.mk · (3 + names.length)) hmem

theorem initial_set_params : (Table.initial.set nameX 1).set nameY 2 = tableOf [] := by
  have hmem : ((Table.initial.set nameX 1).set nameY 2).varToMem = (tableOf []).varToMem := by
    funext n
    by_cases hy : n = nameY
    · subst hy
      rfl
    · by_cases hx : n = nameX
      · subst hx
        rfl
      · rw [tableOf_unknown (by simp [Known, hx, hy])]
        simp [Table.set, Table.initial, hx, hy]
  exact congrArg (Table.mk · 3) hmem

end Csapp.Compiler
