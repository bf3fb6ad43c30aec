import Mathlib.Data.Nat.Notation
import Mathlib.Logic.Basic

/-!
# Lib.Run — systems whose calls may abort

A `System` has initial states, the calls that a client may make in a state, and the effect of a call:
a result and a new state, or `none` when the code aborts.  `System.Invariant` asks that a legal call
does not abort and keeps a predicate; it then holds in every reachable state, and no legal call
aborts there.  `System.restrict` allows only the calls that meet a condition.  `System.Along` says of one run that all
its steps satisfy a condition (`System.withHistory` lets it speak of the calls before), `System.after` is the state that
a run ends in, and `System.attempt` the one of a run that checks that its calls are legal.
-/

namespace Csapp.Lib

/-- States `σ`, calls `α`, results `ρ`. -/
structure System (σ α ρ : Type*) where
  init : σ → Prop
  legal : σ → α → Prop
  exec : σ → α → Option (ρ × σ)

namespace System

variable {σ α ρ : Type*} {S : System σ α ρ} {I : σ → Prop} {s : σ} {a : α}

/-- The states of all runs. -/
inductive Reach (S : System σ α ρ) : σ → Prop
  | init {s : σ} : S.init s → S.Reach s
  | step {s s' : σ} {a : α} {r : ρ} : S.Reach s → S.legal s a → S.exec s a = some (r, s') → S.Reach s'

/-- `I` holds initially, and legal calls run to their end and keep it. -/
structure Invariant (S : System σ α ρ) (I : σ → Prop) : Prop where
  init : ∀ s, S.init s → I s
  step : ∀ s a, I s → S.legal s a → ∃ r s', S.exec s a = some (r, s') ∧ I s'

theorem Invariant.reach (h : S.Invariant I) (hs : S.Reach s) : I s := by
  induction hs with
  | init h0 => exact h.init _ h0
  | step _ hl he ih =>
    obtain ⟨r, s', he', hI⟩ := h.step _ _ ih hl
    rw [he] at he'
    obtain ⟨-, rfl⟩ := Prod.mk.inj (Option.some.inj he')
    exact hI

/-- A predicate that holds initially and that the calls keep which do not abort. -/
theorem Reach.induct (h0 : ∀ s, S.init s → I s)
    (hstep : ∀ s a r s', I s → S.legal s a → S.exec s a = some (r, s') → I s') (hs : S.Reach s) : I s := by
  induction hs with
  | init h => exact h0 _ h
  | step _ hl he ih => exact hstep _ _ _ _ ih hl he

/-- No legal call aborts. -/
theorem Invariant.progress (h : S.Invariant I) (hs : S.Reach s) (hl : S.legal s a) :
    ∃ r s', S.exec s a = some (r, s') ∧ S.Reach s' := by
  obtain ⟨r, s', he, -⟩ := h.step s a (h.reach hs) hl
  exact ⟨r, s', he, hs.step hl he⟩

/-- The system whose calls also meet `P` in the state before them. -/
def restrict (S : System σ α ρ) (P : σ → α → Prop) : System σ α ρ where
  init := S.init
  legal s a := S.legal s a ∧ P s a
  exec := S.exec

section Restrict

variable {P : σ → α → Prop}

/-- A condition that the invariant gives for every legal call is no restriction. -/
theorem Invariant.of_restrict (h : (S.restrict P).Invariant I) (hP : ∀ s a, I s → S.legal s a → P s a) :
    S.Invariant I where
  init := h.init
  step s a hI hl := h.step s a hI ⟨hl, hP s a hI hl⟩

end Restrict

/-- The calls `as` run from `s` without an abort, and each step satisfies `P`. -/
def Along (S : System σ α ρ) (P : σ → α → ρ → σ → Prop) : σ → List α → Prop
  | _, [] => True
  | s, a :: as =>
    match S.exec s a with
    | none => False
    | some (r, s') => P s a r s' ∧ S.Along P s' as

instance Along.decidable (S : System σ α ρ) (P : σ → α → ρ → σ → Prop) [∀ s a r s', Decidable (P s a r s')] :
    ∀ (as : List α) (s : σ), Decidable (S.Along P s as)
  | [], _ => isTrue trivial
  | a :: as, s =>
    match h : S.exec s a with
    | none => isFalse (by rw [Along, h]; exact not_false)
    | some (r, s') =>
      haveI := Along.decidable S P as s'
      decidable_of_iff (P s a r s' ∧ S.Along P s' as) (by rw [Along, h])

/-- A step condition that gives another one where an invariant holds, and keeps the invariant. -/
theorem along_imp {P Q : σ → α → ρ → σ → Prop} {L : α → Prop}
    (h : ∀ s a r s', I s → L a → S.exec s a = some (r, s') → P s a r s' → Q s a r s' ∧ I s') :
    ∀ (as : List α) (s : σ), I s → (∀ a ∈ as, L a) → S.Along P s as → S.Along Q s as
  | [], _, _, _, _ => trivial
  | a :: as, s, hI, hL, hP => by
    rw [Along] at hP ⊢
    cases he : S.exec s a with
    | none =>
      rw [he] at hP
      exact hP
    | some x =>
      obtain ⟨r, s'⟩ := x
      rw [he] at hP
      obtain ⟨hQ, hI'⟩ := h s a r s' hI (hL a List.mem_cons_self) he hP.1
      exact ⟨hQ, along_imp h as s' hI' (fun b hb => hL b (List.mem_cons_of_mem a hb)) hP.2⟩

/-- Two step conditions that agree where an invariant holds, which the second one keeps, agree along
every run. -/
theorem along_iff {P Q : σ → α → ρ → σ → Prop} {L : α → Prop}
    (h : ∀ s a r s', I s → L a → S.exec s a = some (r, s') →
      (P s a r s' ↔ Q s a r s') ∧ (Q s a r s' → I s'))
    (as : List α) (s : σ) (hI : I s) (hL : ∀ a ∈ as, L a) : S.Along P s as ↔ S.Along Q s as := by
  constructor
  · refine along_imp (fun s a r s' hI hL he hP => ?_) as s hI hL
    obtain ⟨hpq, hq⟩ := h s a r s' hI hL he
    exact ⟨hpq.mp hP, hq (hpq.mp hP)⟩
  · refine along_imp (fun s a r s' hI hL he hQ => ?_) as s hI hL
    obtain ⟨hpq, hq⟩ := h s a r s' hI hL he
    exact ⟨hpq.mpr hQ, hq hQ⟩

/-- The system with a record of its calls. -/
def withHistory {γ : Type*} (S : System σ α ρ) (record : γ → σ → α → γ) : System (σ × γ) α ρ where
  init x := S.init x.1
  legal x a := S.legal x.1 a
  exec x a := (S.exec x.1 a).map fun y => (y.1, y.2, record x.2 x.1 a)

/-- The record changes nothing. -/
theorem along_withHistory {γ : Type*} (record : γ → σ → α → γ) {P : σ → α → ρ → σ → Prop} :
    ∀ (as : List α) (s : σ) (g : γ),
      (S.withHistory record).Along (fun x a r x' => P x.1 a r x'.1) (s, g) as ↔ S.Along P s as
  | [], _, _ => Iff.rfl
  | a :: as, s, g => by
    rw [Along, Along]
    cases he : S.exec s a with
    | none =>
      have he' : (S.withHistory record).exec (s, g) a = none := congrArg (Option.map _) he
      rw [he']
    | some y =>
      have he' : (S.withHistory record).exec (s, g) a = some (y.1, y.2, record g s a) := congrArg (Option.map _) he
      rw [he']
      exact and_congr_right fun _ => along_withHistory record as y.2 _

/-- The state after the calls. -/
def after (S : System σ α ρ) : σ → List α → Option σ
  | s, [] => some s
  | s, a :: as => (S.exec s a).bind fun x => S.after x.2 as

theorem Reach.after : ∀ {as : List α} {s s' : σ}, (∀ s, ∀ a ∈ as, S.legal s a) → S.Reach s →
    S.after s as = some s' → S.Reach s'
  | [], s, s', _, hs, h => by
    rw [System.after, Option.some.injEq] at h
    exact h ▸ hs
  | a :: as, s, s', hl, hs, h => by
    obtain ⟨⟨r, t⟩, he, ht⟩ := Option.bind_eq_some_iff.mp h
    exact Reach.after (fun s b hb => hl s b (List.mem_cons_of_mem a hb))
      (hs.step (hl s a List.mem_cons_self) he) ht

/-- Where the calls of a kind make a measure smaller and the others do not make it greater, the measure bounds how
many of this kind a run has. -/
theorem countP_add_after_le {m : σ → ℕ} {p : α → Bool}
    (hstep : ∀ s a r s', I s → S.legal s a → S.exec s a = some (r, s') → I s' ∧ (p a).toNat + m s' ≤ m s) :
    ∀ {as : List α} {s s' : σ}, (∀ s, ∀ a ∈ as, S.legal s a) → I s → S.after s as = some s' →
      as.countP p + m s' ≤ m s
  | [], s, s', _, _, h => by
    rw [System.after, Option.some.injEq] at h
    rw [h, List.countP_nil]
    exact Nat.le_of_eq (Nat.zero_add _)
  | a :: as, s, s', hl, hI, h => by
    obtain ⟨⟨r, t⟩, he, ht⟩ := Option.bind_eq_some_iff.mp h
    obtain ⟨hI', hle⟩ := hstep s a r t hI (hl s a List.mem_cons_self) he
    have hrest := countP_add_after_le hstep (fun s b hb => hl s b (List.mem_cons_of_mem a hb)) hI' ht
    rw [List.countP_cons]
    cases hp : p a with
    | true =>
      rw [hp, Bool.toNat_true] at hle
      rw [if_pos rfl]
      omega
    | false =>
      rw [hp, Bool.toNat_false] at hle
      rw [if_neg Bool.false_ne_true]
      omega

theorem length_add_after_le {m : σ → ℕ}
    (hstep : ∀ s a r s', I s → S.legal s a → S.exec s a = some (r, s') → I s' ∧ m s' < m s) {as : List α} {s s' : σ}
    (hl : ∀ s, ∀ a ∈ as, S.legal s a) (hI : I s) (h : S.after s as = some s') : as.length + m s' ≤ m s := by
  have hcount := countP_add_after_le (m := m) (p := fun _ => true) (fun s a r s' hI hl he => by
    obtain ⟨hI', hlt⟩ := hstep s a r s' hI hl he
    exact ⟨hI', by rw [Bool.toNat_true]; omega⟩) hl hI h
  rwa [List.countP_true] at hcount

/-- What evaluation says of the state after a run from an initial state. -/
theorem Reach.of_after {P : σ → Prop} [DecidablePred P] {as : List α} (hl : ∀ s, ∀ a ∈ as, S.legal s a)
    (h0 : S.init s) (h : ((S.after s as).any fun t => decide (P t)) = true) :
    ∃ t, S.after s as = some t ∧ S.Reach t ∧ P t := by
  obtain ⟨t, ht, hP⟩ := (Option.any_eq_true _ _).mp h
  exact ⟨t, ht, Reach.after hl (Reach.init h0) ht, of_decide_eq_true hP⟩

section Attempt

variable [∀ s a, Decidable (S.legal s a)]

/-- The state after the calls; `none` when one of them is not legal or aborts. -/
def attempt (S : System σ α ρ) [∀ s a, Decidable (S.legal s a)] : σ → List α → Option σ
  | s, [] => some s
  | s, a :: as => if S.legal s a then (S.exec s a).bind fun x => S.attempt x.2 as else none

theorem Reach.attempt : ∀ {as : List α} {s s' : σ}, S.Reach s → S.attempt s as = some s' → S.Reach s'
  | [], s, s', hs, h => by
    rw [System.attempt, Option.some.injEq] at h
    exact h ▸ hs
  | a :: as, s, s', hs, h => by
    rw [System.attempt] at h
    by_cases hl : S.legal s a
    · rw [if_pos hl] at h
      obtain ⟨⟨r, t⟩, he, ht⟩ := Option.bind_eq_some_iff.mp h
      exact Reach.attempt (hs.step hl he) ht
    · rw [if_neg hl] at h
      cases h

/-- What evaluation says of the state after a run of legal calls from an initial state. -/
theorem Reach.of_attempt {Q : σ → Prop} [DecidablePred Q] (as : List α) (h0 : S.init s)
    (h : ((S.attempt s as).any fun t => decide (Q t)) = true) : ∃ t, S.Reach t ∧ Q t := by
  obtain ⟨t, ht, hQ⟩ := (Option.any_eq_true _ _).mp h
  exact ⟨t, Reach.attempt (Reach.init h0) ht, of_decide_eq_true hQ⟩

end Attempt

end System

end Csapp.Lib
