import Mathlib.Data.List.Infix

/-!
# Lib.Scan — scanning for a pattern by hand

A loop compares what stands at its position with a pattern, element by element from the left, and goes on at the
first difference (`differs`).  `scan` splits a list in front of the first place where the pattern stands.  At the
end of the list the comparison may read on: a scan fails exactly when the list does not contain the pattern but
ends with a part of it (`scan_cases`).
-/

namespace Csapp.Lib

variable {α : Type*}

/-- `l[0] ≠ pattern[0] ∨ l[1] ≠ pattern[1] ∨ …`, read from the left; `none` is an index out of range. -/
def differs [DecidableEq α] : List α → List α → Option Bool
  | [], _ => some false
  | _ :: _, [] => none
  | p :: pattern, a :: l => if a = p then differs pattern l else some true

/-- What stands in front of the pattern, and what is from there on. -/
def scan [DecidableEq α] (pattern : List α) : List α → Option (List α × List α)
  | [] => some ([], [])
  | a :: l =>
    match differs pattern (a :: l) with
    | none => none
    | some false => some ([], a :: l)
    | some true => (scan pattern l).map fun x => (a :: x.1, x.2)

/-- The list does not contain the pattern, but ends with a part of it. -/
def BreaksOff (pattern l : List α) : Prop := ¬ pattern <:+: l ∧ ∃ s, s ≠ [] ∧ s <:+ l ∧ s <+: pattern

/-- Behind `front` the pattern stands for the first time. -/
def First (pattern front : List α) : Prop := ¬ pattern <:+: front ++ pattern.dropLast

/-! ## Places -/

section Places

variable {pattern front rest l : List α} {a : α}

theorem first_nil (hne : pattern ≠ []) : First pattern [] := by
  intro h
  have hlen := h.length_le
  rw [List.nil_append, List.length_dropLast] at hlen
  have hpos := List.length_pos_iff.mpr hne
  omega

theorem First.cons (h : First pattern front) (ha : ¬ pattern <+: a :: (front ++ pattern.dropLast)) :
    First pattern (a :: front) := by
  intro hinfix
  rcases List.infix_cons_iff.mp hinfix with hpre | hinfix
  · exact ha hpre
  · exact h hinfix

theorem First.tail (h : First pattern (a :: front)) : First pattern front := fun hinfix => h (List.infix_cons hinfix)

/-- Where the pattern stands earlier, it reaches no further than into the first place but one. -/
theorem prefix_dropLast (hne : pattern ≠ []) : pattern <+: a :: (front ++ (pattern ++ rest)) ↔
    pattern <+: a :: (front ++ pattern.dropLast) := by
  have hsplit : a :: (front ++ (pattern ++ rest)) =
      a :: (front ++ pattern.dropLast) ++ ([pattern.getLast hne] ++ rest) := by
    have hp := List.dropLast_append_getLast hne
    conv_lhs => rw [← hp]
    simp only [List.append_assoc, List.cons_append]
  have hlen : pattern.length ≤ (a :: (front ++ pattern.dropLast)).length := by
    rw [List.length_cons, List.length_append, List.length_dropLast]
    omega
  rw [hsplit]
  refine ⟨fun h => ?_, fun h => h.trans (List.prefix_append _ _)⟩
  exact List.prefix_of_prefix_length_le h (List.prefix_append _ _) hlen

theorem breaksOff_cons (hl : ¬ a :: l <+: pattern) (hp : ¬ pattern <+: a :: l) :
    BreaksOff pattern (a :: l) ↔ BreaksOff pattern l := by
  have hsuffix : (∃ s, s ≠ [] ∧ s <:+ a :: l ∧ s <+: pattern) ↔ ∃ s, s ≠ [] ∧ s <:+ l ∧ s <+: pattern := by
    refine exists_congr fun s => and_congr_right fun _ => ?_
    rw [List.suffix_cons_iff]
    constructor
    · rintro ⟨rfl | hs, hpre⟩
      · exact absurd hpre hl
      · exact ⟨hs, hpre⟩
    · rintro ⟨hs, hpre⟩
      exact ⟨Or.inr hs, hpre⟩
  rw [BreaksOff, BreaksOff, hsuffix, List.infix_cons_iff, or_iff_right hp]

theorem not_breaksOff_of_first : ¬ BreaksOff pattern (front ++ (pattern ++ rest)) := by
  rintro ⟨h, -⟩
  exact h (List.infix_append' _ _ _)

end Places

/-! ## The comparison -/

section Differs

variable [DecidableEq α]

theorem differs_eq_false : ∀ {pattern l : List α}, differs pattern l = some false ↔ pattern <+: l
  | [], l => iff_of_true rfl List.nil_prefix
  | p :: pattern, [] => by
    refine iff_of_false ?_ ?_
    · intro h
      cases h
    · intro h
      exact List.cons_ne_nil _ _ (List.prefix_nil.mp h)
  | p :: pattern, a :: l => by
    rw [differs, List.cons_prefix_cons]
    by_cases h : a = p
    · rw [if_pos h, differs_eq_false, h]
      exact (and_iff_right rfl).symm
    · rw [if_neg h]
      refine iff_of_false ?_ ?_
      · intro h
        cases h
      · rintro ⟨rfl, -⟩
        exact h rfl

theorem differs_eq_none : ∀ {pattern l : List α}, differs pattern l = none ↔ l <+: pattern ∧ ¬ pattern <+: l
  | [], l => by
    refine iff_of_false ?_ ?_
    · intro h
      cases h
    · intro h
      exact h.2 List.nil_prefix
  | p :: pattern, [] => iff_of_true rfl ⟨List.nil_prefix, fun h => List.cons_ne_nil _ _ (List.prefix_nil.mp h)⟩
  | p :: pattern, a :: l => by
    rw [differs, List.cons_prefix_cons, List.cons_prefix_cons]
    by_cases h : a = p
    · rw [if_pos h, differs_eq_none, h, and_iff_right rfl, and_iff_right rfl]
    · rw [if_neg h]
      refine iff_of_false ?_ ?_
      · intro h
        cases h
      · rintro ⟨⟨rfl, -⟩, -⟩
        exact h rfl

end Differs

/-! ## The scan -/

section Scan

variable [DecidableEq α] {pattern front rest l : List α}

/-- The scan stops at the first place. -/
theorem scan_first (hne : pattern ≠ []) (h : First pattern front) (rest : List α) :
    scan pattern (front ++ (pattern ++ rest)) = some (front, pattern ++ rest) := by
  induction front with
  | nil =>
    have hd : differs pattern (pattern ++ rest) = some false := differs_eq_false.mpr (List.prefix_append _ _)
    rw [List.nil_append]
    cases hl : pattern ++ rest with
    | nil => exact absurd (List.append_eq_nil_iff.mp hl).1 hne
    | cons b l =>
      rw [hl] at hd
      rw [scan, hd]
  | cons a front ih =>
    have hd : differs pattern (a :: (front ++ (pattern ++ rest))) = some true := by
      cases hb : differs pattern (a :: (front ++ (pattern ++ rest))) with
      | none =>
        have hlen := (differs_eq_none.mp hb).1.length_le
        rw [List.length_cons, List.length_append, List.length_append] at hlen
        omega
      | some b =>
        cases b with
        | true => rfl
        | false => exact absurd ((prefix_dropLast hne).mp (differs_eq_false.mp hb)).isInfix h
    rw [List.cons_append, scan, hd]
    dsimp only
    rw [ih h.tail, Option.map_some]

/-- **What a scan does**: it fails, or it goes to the end, or it stops in front of the pattern. -/
theorem scan_cases (hne : pattern ≠ []) (l : List α) : (BreaksOff pattern l ∧ scan pattern l = none) ∨
    (¬ BreaksOff pattern l ∧ ¬ pattern <:+: l ∧ scan pattern l = some (l, [])) ∨
    ∃ front rest, l = front ++ (pattern ++ rest) ∧ First pattern front := by
  induction l with
  | nil =>
    refine Or.inr (Or.inl ⟨?_, ?_, rfl⟩)
    · rintro ⟨-, s, hs, hsuffix, -⟩
      exact hs (List.suffix_nil.mp hsuffix)
    · intro h
      exact hne (List.infix_nil.mp h)
  | cons a l ih =>
    cases hd : differs pattern (a :: l) with
    | none =>
      obtain ⟨hl, hp⟩ := differs_eq_none.mp hd
      refine Or.inl ⟨⟨?_, a :: l, List.cons_ne_nil _ _, List.suffix_refl _, hl⟩, by rw [scan, hd]⟩
      intro h
      rw [h.eq_of_length_le hl.length_le] at hp
      exact hp List.prefix_rfl
    | some b =>
      cases b with
      | false =>
        obtain ⟨rest, hrest⟩ := differs_eq_false.mp hd
        exact Or.inr (Or.inr ⟨[], rest, hrest.symm, first_nil hne⟩)
      | true =>
        have hp : ¬ pattern <+: a :: l := by
          intro h
          cases hd.symm.trans (differs_eq_false.mpr h)
        have hl : ¬ a :: l <+: pattern := by
          intro h
          cases hd.symm.trans (differs_eq_none.mpr ⟨h, hp⟩)
        have hscan : scan pattern (a :: l) = (scan pattern l).map fun x => (a :: x.1, x.2) := by rw [scan, hd]
        rw [breaksOff_cons hl hp, hscan]
        rcases ih with ⟨h1, h2⟩ | ⟨h1, h2, h3⟩ | ⟨front, rest, rfl, h2⟩
        · exact Or.inl ⟨h1, by rw [h2, Option.map_none]⟩
        · refine Or.inr (Or.inl ⟨h1, ?_, by rw [h3, Option.map_some]⟩)
          rw [List.infix_cons_iff]
          exact not_or_intro hp h2
        · exact Or.inr (Or.inr ⟨a :: front, rest, rfl, h2.cons (mt (prefix_dropLast hne).mpr hp)⟩)

/-- A scan splits the list. -/
theorem scan_append (hne : pattern ≠ []) {x : List α × List α} (h : scan pattern l = some x) : l = x.1 ++ x.2 := by
  rcases scan_cases hne l with ⟨-, h2⟩ | ⟨-, -, h3⟩ | ⟨front, rest, rfl, h2⟩
  · cases h2.symm.trans h
  · obtain rfl := Option.some.inj (h3.symm.trans h)
    exact (List.append_nil l).symm
  · obtain rfl := Option.some.inj ((scan_first hne h2 rest).symm.trans h)
    rfl

theorem scan_eq_none (hne : pattern ≠ []) : scan pattern l = none ↔ BreaksOff pattern l := by
  rcases scan_cases hne l with ⟨h1, h2⟩ | ⟨h1, -, h3⟩ | ⟨front, rest, rfl, h2⟩
  · exact iff_of_true h2 h1
  · refine iff_of_false ?_ h1
    intro h
    cases h3.symm.trans h
  · refine iff_of_false ?_ not_breaksOff_of_first
    intro h
    cases (scan_first hne h2 rest).symm.trans h

/-- Where a scan fails, or what comes after it, if that does not fail behind the end. -/
theorem scan_bind_eq_none {β : Type*} {f : List α × List α → Option β} (hne : pattern ≠ []) (hend : f (l, []) ≠ none) :
    (scan pattern l).bind f = none ↔ BreaksOff pattern l ∨
      ∃ front rest, l = front ++ (pattern ++ rest) ∧ First pattern front ∧ f (front, pattern ++ rest) = none := by
  constructor
  · intro h
    rcases scan_cases hne l with ⟨h1, -⟩ | ⟨-, -, h3⟩ | ⟨front, rest, rfl, h2⟩
    · exact Or.inl h1
    · rw [h3] at h
      exact absurd h hend
    · rw [scan_first hne h2] at h
      exact Or.inr ⟨front, rest, rfl, h2, h⟩
  · rintro (h | ⟨front, rest, rfl, h1, h2⟩)
    · rw [(scan_eq_none hne).mpr h, Option.bind_none]
    · rw [scan_first hne h1]
      exact h2

/-- The scan stops at a place if and only if it is the first one. -/
theorem scan_at_iff (hne : pattern ≠ []) (rest : List α) :
    (∃ r, scan pattern (front ++ (pattern ++ rest)) = some (front, r)) ↔ First pattern front := by
  refine ⟨?_, fun h => ⟨_, scan_first hne h rest⟩⟩
  rintro ⟨r, hr⟩
  rcases scan_cases hne (front ++ (pattern ++ rest)) with ⟨-, h2⟩ | ⟨-, h2, -⟩ | ⟨front', rest', h1, h2⟩
  · cases h2.symm.trans hr
  · exact absurd (List.infix_append' _ _ _) h2
  · rw [h1, scan_first hne h2] at hr
    obtain ⟨rfl, -⟩ := Prod.mk.inj (Option.some.inj hr)
    exact h2

/-- The scan goes to the end if and only if the pattern and its beginnings are not in the way. -/
theorem scan_end_iff (hne : pattern ≠ []) :
    (∃ r, scan pattern l = some (l, r)) ↔ ¬ pattern <:+: l ∧ ¬ BreaksOff pattern l := by
  rcases scan_cases hne l with ⟨h1, h2⟩ | ⟨h1, h2, h3⟩ | ⟨front, rest, rfl, h2⟩
  · refine iff_of_false ?_ fun h => h.2 h1
    rintro ⟨r, hr⟩
    cases h2.symm.trans hr
  · exact iff_of_true ⟨_, h3⟩ ⟨h2, h1⟩
  · refine iff_of_false ?_ fun h => h.1 (List.infix_append' _ _ _)
    rintro ⟨r, hr⟩
    obtain ⟨hfront, -⟩ := Prod.mk.inj (Option.some.inj ((scan_first hne h2 rest).symm.trans hr))
    have hlen := congrArg List.length hfront
    rw [List.length_append, List.length_append] at hlen
    have hpos := List.length_pos_iff.mpr hne
    omega

end Scan

end Csapp.Lib
