import Mathlib.Data.List.FinRange
import Mathlib.Logic.Function.Basic

/-!
# Tsh.Jobs — the job list of the shell

`jobs` has `MAXJOBS` slots, and a slot with `pid = 0` is free.  `addjob` takes the next job ID from
`nextjid`, which wraps to 1 after `MAXJOBS`; `deletejob` sets it to one more than the largest ID in use.
So an ID that `nextjid` comes back to may still name a job: the IDs stay distinct only if it does not
(`jidsDistinct_addjob`).
-/

namespace Csapp.Tsh

abbrev MAXJOBS : ℕ := 16

/-- Job states. -/
inductive JobState
  | UNDEF
  | FG
  | BG
  | ST
  deriving DecidableEq

structure Job where
  pid : Int32
  jid : Int32
  state : JobState
  deriving DecidableEq

/-- The job list, and the next job ID to allocate. -/
structure Table where
  jobs : Fin MAXJOBS → Job
  nextjid : Int32

def clearjob : Job := ⟨0, 0, .UNDEF⟩

def initjobs : Table := ⟨fun _ => clearjob, 1⟩

namespace Table

/-- The first slot whose job satisfies `p`. -/
def first (t : Table) (p : Job → Bool) : Option (Fin MAXJOBS) :=
  (List.finRange MAXJOBS).find? fun i => p (t.jobs i)

def maxjid (t : Table) : Int32 :=
  (List.finRange MAXJOBS).foldl (fun max i => if (t.jobs i).jid > max then (t.jobs i).jid else max) 0

def setJob (t : Table) (i : Fin MAXJOBS) (j : Job) : Table := { t with jobs := Function.update t.jobs i j }

def addjob (t : Table) (pid : Int32) (state : JobState) : Bool × Table :=
  if pid < 1 then (false, t) else
  match t.first (·.pid = 0) with
  | none => (false, t)
  | some i =>
    (true, { t.setJob i ⟨pid, t.nextjid, state⟩ with
      nextjid := if t.nextjid + 1 > 16 then 1 else t.nextjid + 1 })

def deletejob (t : Table) (pid : Int32) : Bool × Table :=
  if pid < 1 then (false, t) else
  match t.first (·.pid = pid) with
  | none => (false, t)
  | some i => (true, { t.setJob i clearjob with nextjid := (t.setJob i clearjob).maxjid + 1 })

def fgpid (t : Table) : Int32 :=
  match t.first (·.state = .FG) with
  | none => 0
  | some i => (t.jobs i).pid

def getjobpid (t : Table) (pid : Int32) : Option (Fin MAXJOBS) :=
  if pid < 1 then none else t.first (·.pid = pid)

def getjobjid (t : Table) (jid : Int32) : Option (Fin MAXJOBS) :=
  if jid < 1 then none else t.first (·.jid = jid)

/-- `addjob` takes a slot. -/
def Takes (t : Table) (pid : Int32) : Prop := ¬ pid < 1 ∧ ∃ i, (t.jobs i).pid = 0

instance (t : Table) (pid : Int32) : Decidable (t.Takes pid) := inferInstanceAs (Decidable (_ ∧ _))

/-- `deletejob` clears a slot. -/
def Clears (t : Table) (pid : Int32) : Prop := ¬ pid < 1 ∧ ∃ i, (t.jobs i).pid = pid

instance (t : Table) (pid : Int32) : Decidable (t.Clears pid) := inferInstanceAs (Decidable (_ ∧ _))

/-! ## Slots -/

variable {t : Table} {p : Job → Bool} {i k : Fin MAXJOBS} {j : Job} {pid jid : Int32}

theorem first_some (h : t.first p = some i) : p (t.jobs i) = true := by
  have := List.find?_some h
  exact this

theorem first_eq_none : t.first p = none ↔ ∀ i, p (t.jobs i) = false := by
  simp [first, List.find?_eq_none]

@[simp] theorem setJob_same : (t.setJob i j).jobs i = j := Function.update_self ..

theorem setJob_of_ne (h : k ≠ i) : (t.setJob i j).jobs k = t.jobs k := Function.update_of_ne h ..

/-- What `addjob` does: it takes a free slot, if the pid is positive and there is one. -/
theorem addjob_cases (t : Table) (pid : Int32) (state : JobState) :
    ((pid < 1 ∨ ∀ i, (t.jobs i).pid ≠ 0) ∧ t.addjob pid state = (false, t)) ∨
      ∃ i n, ¬ pid < 1 ∧ (t.jobs i).pid = 0 ∧
        t.addjob pid state = (true, { t.setJob i ⟨pid, t.nextjid, state⟩ with nextjid := n }) := by
  by_cases hpid : pid < 1
  · exact Or.inl ⟨Or.inl hpid, if_pos hpid⟩
  · rw [addjob, if_neg hpid]
    cases hf : t.first (·.pid = 0) with
    | none =>
      refine Or.inl ⟨Or.inr fun i => ?_, rfl⟩
      exact of_decide_eq_false (first_eq_none.mp hf i)
    | some i => exact Or.inr ⟨i, _, hpid, of_decide_eq_true (first_some hf), rfl⟩

/-- What `deletejob` does: it clears one slot with the pid, if the pid is positive and there is one. -/
theorem deletejob_cases (t : Table) (pid : Int32) :
    ((pid < 1 ∨ ∀ i, (t.jobs i).pid ≠ pid) ∧ t.deletejob pid = (false, t)) ∨
      ∃ i n, ¬ pid < 1 ∧ (t.jobs i).pid = pid ∧
        t.deletejob pid = (true, { t.setJob i clearjob with nextjid := n }) := by
  by_cases hpid : pid < 1
  · exact Or.inl ⟨Or.inl hpid, if_pos hpid⟩
  · rw [deletejob, if_neg hpid]
    cases hf : t.first (·.pid = pid) with
    | none =>
      refine Or.inl ⟨Or.inr fun i => ?_, rfl⟩
      exact of_decide_eq_false (first_eq_none.mp hf i)
    | some i => exact Or.inr ⟨i, _, hpid, of_decide_eq_true (first_some hf), rfl⟩

theorem addjob_of_not_takes (h : ¬ t.Takes pid) (state : JobState) : t.addjob pid state = (false, t) := by
  rcases addjob_cases t pid state with ⟨-, he⟩ | ⟨i, n, hpid, hi, -⟩
  · exact he
  · exact absurd ⟨hpid, i, hi⟩ h

theorem deletejob_of_not_clears (h : ¬ t.Clears pid) : t.deletejob pid = (false, t) := by
  rcases deletejob_cases t pid with ⟨-, he⟩ | ⟨i, n, hpid, hi, -⟩
  · exact he
  · exact absurd ⟨hpid, i, hi⟩ h

/-- `nextjid` behind a job that has been added. -/
theorem addjob_nextjid (h : t.Takes pid) (state : JobState) :
    (t.addjob pid state).2.nextjid = if t.nextjid + 1 > 16 then 1 else t.nextjid + 1 := by
  rw [addjob, if_neg h.1]
  cases hf : t.first (·.pid = 0) with
  | none =>
    obtain ⟨i, hi⟩ := h.2
    exact absurd hi (of_decide_eq_false (first_eq_none.mp hf i))
  | some i => rfl

/-- `nextjid` behind a job that has been deleted. -/
theorem deletejob_nextjid (h : t.Clears pid) :
    (t.deletejob pid).2.nextjid = (t.deletejob pid).2.maxjid + 1 := by
  rw [deletejob, if_neg h.1]
  cases hf : t.first (·.pid = pid) with
  | none =>
    obtain ⟨i, hi⟩ := h.2
    exact absurd hi (of_decide_eq_false (first_eq_none.mp hf i))
  | some i => rfl

theorem getjobpid_some (h : t.getjobpid pid = some i) : (t.jobs i).pid = pid ∧ ¬ pid < 1 := by
  rw [getjobpid] at h
  split_ifs at h with hpid
  exact ⟨of_decide_eq_true (first_some h), hpid⟩

theorem getjobpid_eq_none (h : t.getjobpid pid = none) (hpid : ¬ pid < 1) (i : Fin MAXJOBS) :
    (t.jobs i).pid ≠ pid := by
  rw [getjobpid, if_neg hpid] at h
  exact of_decide_eq_false (first_eq_none.mp h i)

theorem getjobjid_some (h : t.getjobjid jid = some i) : (t.jobs i).jid = jid ∧ ¬ jid < 1 := by
  rw [getjobjid] at h
  split_ifs at h with hjid
  exact ⟨of_decide_eq_true (first_some h), hjid⟩

/-! ## Job IDs -/

/-- A slot that is free has been cleared. -/
def Cleared (t : Table) : Prop := ∀ i, (t.jobs i).pid = 0 → t.jobs i = clearjob

/-- No two live jobs have one job ID. -/
def JidsDistinct (t : Table) : Prop :=
  ∀ i k, (t.jobs i).pid ≠ 0 → (t.jobs k).pid ≠ 0 → (t.jobs i).jid = (t.jobs k).jid → i = k

/-- What `getjobjid` finds is the only live job with that ID. -/
def JidsName (t : Table) : Prop :=
  ∀ jid i, t.getjobjid jid = some i →
    (t.jobs i).pid ≠ 0 ∧ ∀ k, (t.jobs k).pid ≠ 0 → (t.jobs k).jid = jid → k = i

theorem Cleared.setJob (h : t.Cleared) (hj : j.pid = 0 → j = clearjob) : (t.setJob i j).Cleared := by
  intro k hk
  by_cases hki : k = i
  · subst hki
    rw [setJob_same] at hk ⊢
    exact hj hk
  · rw [setJob_of_ne hki] at hk ⊢
    exact h k hk

theorem Cleared.addjob (h : t.Cleared) (pid : Int32) (state : JobState) : (t.addjob pid state).2.Cleared := by
  rcases addjob_cases t pid state with ⟨-, he⟩ | ⟨i, n, hpid, -, he⟩
  · rw [he]
    exact h
  · rw [he]
    refine h.setJob (i := i) fun h0 => absurd ?_ hpid
    rw [show pid = 0 from h0]
    decide

theorem Cleared.deletejob (h : t.Cleared) (pid : Int32) : (t.deletejob pid).2.Cleared := by
  rcases deletejob_cases t pid with ⟨-, he⟩ | ⟨i, n, -, -, he⟩
  · rw [he]
    exact h
  · rw [he]
    exact h.setJob (i := i) fun _ => rfl

theorem JidsDistinct.names (h : t.JidsDistinct) (hc : t.Cleared) : t.JidsName := by
  intro jid i hi
  obtain ⟨h1, h2⟩ := getjobjid_some hi
  have hlive : (t.jobs i).pid ≠ 0 := by
    intro h0
    rw [hc i h0] at h1
    rw [← h1] at h2
    exact h2 (by decide)
  exact ⟨hlive, fun k hk hjid => h k i hk hlive (hjid.trans h1.symm)⟩

theorem JidsDistinct.deletejob (h : t.JidsDistinct) (pid : Int32) : (t.deletejob pid).2.JidsDistinct := by
  rcases deletejob_cases t pid with ⟨-, he⟩ | ⟨i, n, -, -, he⟩
  · rw [he]
    exact h
  · rw [he]
    have hne : ∀ k, ((t.setJob i clearjob).jobs k).pid ≠ 0 → k ≠ i := by
      rintro k hk rfl
      rw [setJob_same] at hk
      exact hk rfl
    intro k l hk hl hkl
    have hk' : (t.setJob i clearjob).jobs k = t.jobs k := setJob_of_ne (hne k hk)
    have hl' : (t.setJob i clearjob).jobs l = t.jobs l := setJob_of_ne (hne l hl)
    dsimp only at hk hl hkl
    rw [hk'] at hk hkl
    rw [hl'] at hl hkl
    exact h k l hk hl hkl

/-- The IDs stay distinct exactly if no live job has the ID that `addjob` gives out. -/
theorem jidsDistinct_addjob (h : t.JidsDistinct) (pid : Int32) (state : JobState) :
    (t.addjob pid state).2.JidsDistinct ↔
      (t.Takes pid → ∀ k, (t.jobs k).pid ≠ 0 → (t.jobs k).jid ≠ t.nextjid) := by
  rcases addjob_cases t pid state with ⟨hno, he⟩ | ⟨i, n, hpid, hi, he⟩
  · rw [he]
    refine iff_of_true h fun ⟨hpid, i, hi⟩ => ?_
    rcases hno with hno | hno
    · exact absurd hno hpid
    · exact absurd hi (hno i)
  · rw [he]
    have hpid0 : pid ≠ 0 := by
      rintro rfl
      exact hpid (by decide)
    have hold : ∀ k, (t.jobs k).pid ≠ 0 → (t.setJob i ⟨pid, t.nextjid, state⟩).jobs k = t.jobs k := by
      intro k hk
      refine setJob_of_ne ?_
      rintro rfl
      exact hk hi
    constructor
    · intro hd _ k hk hjid
      have hki : k = i := by
        refine hd k i ?_ ?_ ?_
        · show ((t.setJob i ⟨pid, t.nextjid, state⟩).jobs k).pid ≠ 0
          rwa [hold k hk]
        · show ((t.setJob i ⟨pid, t.nextjid, state⟩).jobs i).pid ≠ 0
          rwa [setJob_same]
        · show ((t.setJob i ⟨pid, t.nextjid, state⟩).jobs k).jid = ((t.setJob i ⟨pid, t.nextjid, state⟩).jobs i).jid
          rw [hold k hk, setJob_same, hjid]
      exact hk (hki ▸ hi)
    · intro hnew k l hk hl hkl
      have hfresh := hnew ⟨hpid, i, hi⟩
      dsimp only at hk hl hkl
      by_cases hki : k = i
      · by_cases hli : l = i
        · rw [hki, hli]
        · subst hki
          rw [setJob_of_ne hli] at hl hkl
          rw [setJob_same] at hkl
          exact absurd hkl.symm (hfresh l hl)
      · rw [setJob_of_ne hki] at hk hkl
        by_cases hli : l = i
        · subst hli
          rw [setJob_same] at hkl
          exact absurd hkl (hfresh k hk)
        · rw [setJob_of_ne hli] at hl hkl
          exact h k l hk hl hkl

end Table

end Csapp.Tsh
