import Mathlib.Data.List.Nodup

/-!
# Lib.Links — singly linked lists

`Links next a l`: from the node `a`, following `next` visits `l` and ends.  A node behind a prefix `l` is
reached from `l.getLastD a`; the two edits of list code, linking a new node behind it (`Links.insert`) and
unlinking the node behind it (`Links.erase`), write only there.  `walk` computes the list.
-/

namespace Csapp.Lib

variable {α : Type*} {next next' : α → Option α} {a n : α} {l r : List α}

def Links (next : α → Option α) : α → List α → Prop
  | a, [] => next a = none
  | a, b :: l => next a = some b ∧ Links next b l

/-- At most `fuel` nodes behind `a`. -/
def walk (next : α → Option α) : ℕ → α → List α
  | 0, _ => []
  | fuel + 1, a =>
    match next a with
    | none => []
    | some b => b :: walk next fuel b

theorem Links.next_eq (h : Links next a l) : next a = l.head? := by
  cases l with
  | nil => exact h
  | cons b l => exact h.1

theorem Links.walk_eq : ∀ {l : List α} {a : α} {fuel : ℕ}, Links next a l → l.length ≤ fuel →
    walk next fuel a = l
  | [], a, 0, _, _ => rfl
  | [], a, fuel + 1, h, _ => by
    have h' : next a = none := h
    rw [walk, h']
  | b :: l, a, fuel + 1, h, hf => by
    rw [walk, h.1]
    exact congrArg (b :: ·) (Links.walk_eq h.2 (Nat.le_of_succ_le_succ hf))

theorem getLastD_append (l r : List α) (a : α) : (l ++ r).getLastD a = r.getLastD (l.getLastD a) := by
  induction l generalizing a with
  | nil => rfl
  | cons b l ih => rw [List.cons_append, List.getLastD_cons, List.getLastD_cons, ih]

theorem Links.unique {l l' : List α} (h : Links next a l) (h' : Links next a l') : l = l' := by
  induction l generalizing a l' with
  | nil =>
    cases l' with
    | nil => rfl
    | cons b' l' => cases h.symm.trans h'.1
  | cons b l ih =>
    cases l' with
    | nil => cases h.1.symm.trans h'
    | cons b' l' =>
      obtain rfl : b = b' := Option.some.inj (h.1.symm.trans h'.1)
      exact congrArg (b :: ·) (ih h.2 h'.2)

/-- The rest of the list, from the last node of a prefix. -/
theorem Links.suffix (h : Links next a (l ++ r)) : Links next (l.getLastD a) r := by
  induction l generalizing a with
  | nil => exact h
  | cons b l ih => rw [List.getLastD_cons]; exact ih h.2

theorem Links.congr (h : Links next a l) (hc : ∀ x ∈ a :: l, next' x = next x) : Links next' a l := by
  induction l generalizing a with
  | nil => exact (hc a List.mem_cons_self).trans h
  | cons b l ih =>
    exact ⟨(hc a List.mem_cons_self).trans h.1, ih h.2 fun x hx => hc x (List.mem_cons_of_mem a hx)⟩

/-- A new node `n` behind the prefix `l`. -/
theorem Links.insert (h : Links next a (l ++ r)) (hnd : (a :: (l ++ r)).Nodup)
    (hnew : next' n = next (l.getLastD a)) (hpred : next' (l.getLastD a) = some n)
    (hc : ∀ x ∈ a :: (l ++ r), x ≠ l.getLastD a → next' x = next x) :
    Links next' a (l ++ n :: r) := by
  induction l generalizing a with
  | nil =>
    obtain ⟨hna, -⟩ := List.nodup_cons.mp hnd
    refine ⟨hpred, ?_⟩
    cases r with
    | nil => exact hnew.trans h
    | cons b r =>
      refine ⟨hnew.trans h.1, h.2.congr fun x hx => hc x (List.mem_cons_of_mem a hx) ?_⟩
      rintro rfl
      exact hna hx
  | cons b l ih =>
    obtain ⟨hna, hnd⟩ := List.nodup_cons.mp hnd
    rw [List.getLastD_cons] at hnew hpred hc
    have hlast : l.getLastD b ∈ b :: l := List.getLastD_mem_cons
    refine ⟨(hc a List.mem_cons_self ?_).trans h.1, ih h.2 hnd hnew hpred fun x hx =>
      hc x (List.mem_cons_of_mem a hx)⟩
    rintro rfl
    exact hna (List.mem_append_left r hlast)

/-- The node `n` behind the prefix `l` is taken out. -/
theorem Links.erase (h : Links next a (l ++ n :: r)) (hnd : (a :: (l ++ n :: r)).Nodup)
    (hpred : next' (l.getLastD a) = next n)
    (hc : ∀ x ∈ a :: (l ++ r), x ≠ l.getLastD a → next' x = next x) : Links next' a (l ++ r) := by
  induction l generalizing a with
  | nil =>
    obtain ⟨hna, -⟩ := List.nodup_cons.mp hnd
    have hn : Links next n r := h.2
    cases r with
    | nil => exact hpred.trans hn
    | cons b r =>
      refine ⟨hpred.trans hn.1, hn.2.congr fun x hx => hc x (List.mem_cons_of_mem a hx) ?_⟩
      rintro rfl
      exact hna (List.mem_cons_of_mem n hx)
  | cons b l ih =>
    obtain ⟨hna, hnd⟩ := List.nodup_cons.mp hnd
    rw [List.getLastD_cons] at hpred hc
    have hlast : l.getLastD b ∈ b :: l := List.getLastD_mem_cons
    refine ⟨(hc a List.mem_cons_self ?_).trans h.1, ih h.2 hnd hpred fun x hx =>
      hc x (List.mem_cons_of_mem a hx)⟩
    rintro rfl
    exact hna (List.mem_append_left (n :: r) hlast)

/-- A sparser prefix of a list ends at a node of the denser one. -/
theorem getLastD_filter_split {p q : α → Bool} (hpq : ∀ x, p x = true → q x = true) (l : List α)
    (a : α) : ∃ l₁ l₂, l.filter q = l₁ ++ l₂ ∧ l₁.getLastD a = (l.filter p).getLastD a := by
  induction l generalizing a with
  | nil => exact ⟨[], [], rfl, rfl⟩
  | cons x l ih =>
    by_cases hp : p x = true
    · obtain ⟨l₁, l₂, h1, h2⟩ := ih x
      refine ⟨x :: l₁, l₂, ?_, ?_⟩
      · rw [List.filter_cons_of_pos (hpq x hp), h1]; rfl
      · rw [List.filter_cons_of_pos hp, List.getLastD_cons, List.getLastD_cons, h2]
    · rw [List.filter_cons_of_neg hp]
      obtain ⟨l₁, l₂, h1, h2⟩ := ih a
      by_cases hq : q x = true
      · rw [List.filter_cons_of_pos hq]
        cases l₁ with
        | nil => exact ⟨[], x :: l₂, by rw [h1]; rfl, h2⟩
        | cons y l₁ =>
          refine ⟨x :: y :: l₁, l₂, by rw [h1]; rfl, ?_⟩
          rw [← h2, List.getLastD_cons, List.getLastD_cons, List.getLastD_cons]
      · exact ⟨l₁, l₂, by rw [List.filter_cons_of_neg hq, h1], h2⟩

end Csapp.Lib
