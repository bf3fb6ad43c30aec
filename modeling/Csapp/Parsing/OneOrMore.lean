import Csapp.Lib.CString
import Mathlib.Data.List.Infix

/-!
# Parsing.OneOrMore — matching `target+ rest` by backtracking

A string is a pointer into its cells.  A read behind the last cell is `none`: the results below say that there is
none, and what is returned.
-/

namespace Csapp.Parsing

open Csapp.Lib

/-- `rec_starts_with`. -/
def recStartsWith : List UInt8 → List UInt8 → Option Bool
  | [], _ => none
  | p :: pre, text =>
    if p = 0 then some true
    else
      match text with
      | [] => none
      | t :: text => if p = t then recStartsWith pre text else some false

/-- `rec_match_one_or_more`. -/
def recMatchOneOrMore (target : UInt8) (rest : List UInt8) : List UInt8 → Option Bool
  | [] => none
  | t :: text =>
    if t ≠ target then some false
    else
      -- `||`: the second operand is read only when the first is false
      (recMatchOneOrMore target rest text).bind fun b =>
        if b then some true else recStartsWith rest text

/-- One or more `target`, and then `rest`, stand in front of `text`. -/
def OneOrMore (target : UInt8) (rest text : List UInt8) : Prop :=
  ∃ k, 1 ≤ k ∧ List.replicate k target ++ rest <+: text

section OneOrMore

variable {target t : UInt8} {rest text : List UInt8}

theorem not_oneOrMore_nil : ¬OneOrMore target rest [] := by
  rintro ⟨k, hk, h⟩
  obtain ⟨k, rfl⟩ := Nat.exists_eq_add_of_le' hk
  rw [List.replicate_succ, List.cons_append] at h
  exact absurd (List.prefix_nil.mp h) (List.cons_ne_nil _ _)

theorem not_oneOrMore_of_ne (h : t ≠ target) : ¬OneOrMore target rest (t :: text) := by
  rintro ⟨k, hk, hp⟩
  obtain ⟨k, rfl⟩ := Nat.exists_eq_add_of_le' hk
  rw [List.replicate_succ, List.cons_append, List.cons_prefix_cons] at hp
  exact h hp.1.symm

/-- Behind one `target` there are more of them, or `rest` comes at once. -/
theorem oneOrMore_cons :
    OneOrMore target rest (target :: text) ↔ OneOrMore target rest text ∨ rest <+: text := by
  constructor
  · rintro ⟨k, hk, hp⟩
    obtain ⟨k, rfl⟩ := Nat.exists_eq_add_of_le' hk
    rw [List.replicate_succ, List.cons_append, List.cons_prefix_cons] at hp
    cases k with
    | zero => exact Or.inr hp.2
    | succ k => exact Or.inl ⟨k + 1, Nat.le_add_left 1 k, hp.2⟩
  · rintro (⟨k, hk, hp⟩ | hp)
    · refine ⟨k + 1, Nat.le_add_left 1 k, ?_⟩
      rw [List.replicate_succ, List.cons_append, List.cons_prefix_cons]
      exact ⟨rfl, hp⟩
    · refine ⟨1, le_rfl, ?_⟩
      rw [List.replicate_one, List.singleton_append, List.cons_prefix_cons]
      exact ⟨rfl, hp⟩

end OneOrMore

section StartsWith

variable {p t : UInt8} {pre text : List UInt8}

@[simp] theorem recStartsWith_nul : recStartsWith (0 :: pre) text = some true := by
  rw [recStartsWith.eq_def]
  exact if_pos rfl

@[simp] theorem recStartsWith_cons (hp : p ≠ 0) :
    recStartsWith (p :: pre) (t :: text) = if p = t then recStartsWith pre text else some false := by
  rw [recStartsWith.eq_def]
  exact if_neg hp

end StartsWith

/-- The lockstep stops at the end of the prefix, or at the first difference: at the end of the text at the
latest. -/
theorem recStartsWith_spec (pre text : CStr) :
    ∃ b, recStartsWith pre.cells text.cells = some b ∧ (b = true ↔ pre.bytes <+: text.bytes) := by
  induction pre using CStr.inductionOn generalizing text with
  | nil pre hb hc =>
    rw [hc, hb, recStartsWith_nul]
    exact ⟨true, rfl, fun _ => List.nil_prefix, fun _ => rfl⟩
  | cons pre p pre' hp hb hc ih =>
    rw [hc, hb]
    rcases text.cells_cases with ⟨htb, htc⟩ | ⟨t, text', -, htb, htc⟩
    · rw [htc, htb, recStartsWith_cons hp, if_neg hp]
      exact ⟨false, rfl, fun h => absurd h Bool.false_ne_true,
        fun h => absurd (List.prefix_nil.mp h) (List.cons_ne_nil _ _)⟩
    · rw [htc, htb, recStartsWith_cons hp, List.cons_prefix_cons]
      by_cases he : p = t
      · obtain ⟨b, h1, h2⟩ := ih text'
        exact ⟨b, (if_pos he).trans h1, h2.trans (and_iff_right he).symm⟩
      · exact ⟨false, if_neg he, fun h => absurd h Bool.false_ne_true, fun h => absurd h.1 he⟩

/-- The match is found at the last split point that has one; no call reads behind the terminator of the text. -/
theorem recMatchOneOrMore_matches (target : {c : UInt8 // c ≠ 0}) (rest text : CStr) :
    ∃ b, recMatchOneOrMore target rest.cells text.cells = some b ∧
      (b = true ↔ OneOrMore target rest.bytes text.bytes) := by
  obtain ⟨target, ht0⟩ := target
  induction text using CStr.inductionOn with
  | nil text hb hc =>
    rw [hc, hb, recMatchOneOrMore, if_pos (Ne.symm ht0)]
    exact ⟨false, rfl, fun h => absurd h Bool.false_ne_true, fun h => absurd h not_oneOrMore_nil⟩
  | cons text t text' ht hb hc ih =>
    rw [hc, hb, recMatchOneOrMore]
    by_cases he : t = target
    · subst he
      obtain ⟨more, h1, h2⟩ := ih
      obtain ⟨now, h3, h4⟩ := recStartsWith_spec rest text'
      rw [if_neg (not_not.mpr rfl), h1, Option.bind_some, h3]
      refine ⟨more || now, ?_, ?_⟩
      · cases more <;> rfl
      · rw [Bool.or_eq_true, h2, h4, oneOrMore_cons]
    · exact ⟨false, if_pos he, fun h => absurd h Bool.false_ne_true, fun h => absurd h (not_oneOrMore_of_ne he)⟩

end Csapp.Parsing
