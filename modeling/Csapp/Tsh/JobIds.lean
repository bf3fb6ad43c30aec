import Csapp.Lib.Run
import Csapp.Tsh.Jobs
import Mathlib.Data.Fintype.Card

/-!
# Tsh.JobIds — when `nextjid` comes back to an ID in use

`Since` counts from the last deletion: the largest ID that was left, `max`, and the jobs `added` since.  As long as
no more than `15 - max` of them have been added `nextjid` is larger than all IDs in use; from then on it counts from 1
(`Numbered`, the invariant of all runs).  So the IDs stay distinct exactly where the IDs behind the wrap have no live
job (`jids_distinct_iff`).
-/

namespace Csapp.Tsh

open Csapp.Lib

/-! ## The largest ID -/

namespace Table

variable {t : Table}

theorem foldl_jid_ge (t : Table) : ∀ (l : List (Fin MAXJOBS)) (m : Int32),
    m ≤ l.foldl (fun max i => if (t.jobs i).jid > max then (t.jobs i).jid else max) m ∧
      ∀ i ∈ l, (t.jobs i).jid ≤ l.foldl (fun max i => if (t.jobs i).jid > max then (t.jobs i).jid else max) m
  | [], m => ⟨Int32.le_refl m, fun i hi => absurd hi List.not_mem_nil⟩
  | i :: l, m => by
    rw [List.foldl_cons]
    obtain ⟨h1, h2⟩ := foldl_jid_ge t l (if (t.jobs i).jid > m then (t.jobs i).jid else m)
    have hstep : m ≤ (if (t.jobs i).jid > m then (t.jobs i).jid else m) ∧
        (t.jobs i).jid ≤ (if (t.jobs i).jid > m then (t.jobs i).jid else m) := by
      split_ifs with hgt
      · exact ⟨Int32.le_of_lt hgt, Int32.le_refl _⟩
      · exact ⟨Int32.le_refl _, Int32.not_lt.mp hgt⟩
    refine ⟨Int32.le_trans hstep.1 h1, fun k hk => ?_⟩
    rcases List.mem_cons.mp hk with rfl | hk
    · exact Int32.le_trans hstep.2 h1
    · exact h2 k hk

theorem foldl_jid_mem (t : Table) : ∀ (l : List (Fin MAXJOBS)) (m : Int32),
    l.foldl (fun max i => if (t.jobs i).jid > max then (t.jobs i).jid else max) m = m ∨
      ∃ i, l.foldl (fun max i => if (t.jobs i).jid > max then (t.jobs i).jid else max) m = (t.jobs i).jid
  | [], m => Or.inl rfl
  | i :: l, m => by
    rw [List.foldl_cons]
    rcases foldl_jid_mem t l (if (t.jobs i).jid > m then (t.jobs i).jid else m) with h | h
    · rw [h]
      split_ifs
      · exact Or.inr ⟨i, rfl⟩
      · exact Or.inl rfl
    · exact Or.inr h

theorem jid_le_maxjid (t : Table) (i : Fin MAXJOBS) : (t.jobs i).jid.toInt ≤ t.maxjid.toInt :=
  Int32.le_iff_toInt_le.mp ((foldl_jid_ge t _ 0).2 i (List.mem_finRange i))

theorem maxjid_nonneg (t : Table) : 0 ≤ t.maxjid.toInt :=
  Int32.le_iff_toInt_le.mp (foldl_jid_ge t _ 0).1

theorem maxjid_cases (t : Table) : t.maxjid = 0 ∨ ∃ i, t.maxjid = (t.jobs i).jid := foldl_jid_mem t _ 0

/-- The slots that are taken. -/
def taken (t : Table) : Finset (Fin MAXJOBS) := Finset.univ.filter fun i => (t.jobs i).pid ≠ 0

theorem mem_taken {i : Fin MAXJOBS} : i ∈ t.taken ↔ (t.jobs i).pid ≠ 0 := by
  rw [taken, Finset.mem_filter, and_iff_right (Finset.mem_univ i)]

theorem card_taken_lt (h : ∃ i, (t.jobs i).pid = 0) : t.taken.card < MAXJOBS := by
  obtain ⟨i, hi⟩ := h
  have hlt := Finset.card_lt_univ_of_notMem (s := t.taken) fun hm => mem_taken.mp hm hi
  rwa [Fintype.card_fin] at hlt

end Table

/-! ## Counting from the last deletion -/

inductive JobCall
  | addjob (pid : Int32) (state : JobState)
  | deletejob (pid : Int32)

/-- Sequences of calls.  `nextjid++` at the largest `int` has no result. -/
def jobList : System Table JobCall Bool where
  init t := t = initjobs
  legal _ _ := True
  exec t
    | .addjob pid state =>
      if t.Takes pid ∧ t.nextjid = Int32.maxValue then none else some (t.addjob pid state)
    | .deletejob pid => some (t.deletejob pid)

/-- The largest ID in use behind the last deletion, and the jobs added since. -/
structure Since where
  max : ℕ
  added : ℕ

namespace Since

/-- The jobs added since `nextjid` has passed `MAXJOBS`, with the next one. -/
def wrapped (h : Since) : ℕ := h.added - (15 - h.max)

/-- The next job ID. -/
def next (h : Since) : ℕ := if h.wrapped = 0 then h.max + 1 + h.added else h.wrapped

def record (h : Since) (t : Table) : JobCall → Since
  | .addjob pid _ => if t.Takes pid then { h with added := h.added + 1 } else h
  | .deletejob pid => if t.Clears pid then ⟨(t.deletejob pid).2.maxjid.toInt.toNat, 0⟩ else h

theorem next_succ {h : Since} (hadded : h.added < MAXJOBS) :
    ({ h with added := h.added + 1 } : Since).next = if 16 < h.next + 1 then 1 else h.next + 1 := by
  have hslots : h.added < 16 := hadded
  unfold next wrapped
  dsimp only
  split_ifs <;> omega

end Since

/-- `nextjid` follows from the count; the IDs in use are not above it, and no more jobs have been added than slots are
taken. -/
structure Numbered (t : Table) (h : Since) : Prop where
  next : t.nextjid.toInt = h.next
  below : ∀ i, (t.jobs i).jid.toInt ≤ h.max + h.added
  small : ∀ i, (t.jobs i).jid.toInt < 2147483647
  slots : h.added ≤ t.taken.card

section Counting

variable {t t' : Table} {h : Since} {pid : Int32} {state : JobState} {r : Bool} {c : JobCall}

theorem numbered_init : Numbered initjobs ⟨0, 0⟩ where
  next := by decide
  below _ := Int.le_refl 0
  small _ := show (0 : Int32).toInt < 2147483647 by decide
  slots := Nat.zero_le _

/-- `nextjid` behind an addition, where it does not overflow. -/
theorem Numbered.next_add (hc : Numbered t h) (ht : t.Takes pid) (hmax : t.nextjid ≠ Int32.maxValue)
    (state : JobState) :
    (t.addjob pid state).2.nextjid.toInt = ({ h with added := h.added + 1 } : Since).next := by
  have hlt : t.nextjid.toInt < 2147483647 := by
    have hle := t.nextjid.toInt_le
    have hne : t.nextjid.toInt ≠ Int32.maxValue.toInt := fun he => hmax (Int32.toInt_inj.mp he)
    rw [Int32.toInt_maxValue] at hle hne
    omega
  have hsum : (t.nextjid + 1).toInt = h.next + 1 := by
    have hnext := hc.next
    rw [Int32.toInt_add, Int32.toInt_one, Int.bmod_eq_of_le (by omega) (by omega), hnext]
  have hcond : t.nextjid + 1 > 16 ↔ 16 < h.next + 1 := by
    rw [gt_iff_lt, Int32.lt_iff_toInt_lt, hsum]
    show (16 : ℤ) < _ ↔ _
    omega
  rw [Table.addjob_nextjid ht, Since.next_succ (hc.slots.trans_lt (Table.card_taken_lt ht.2))]
  by_cases hwrap : 16 < h.next + 1
  · rw [if_pos (hcond.mpr hwrap), if_pos hwrap]
    rfl
  · rw [if_neg (mt hcond.mp hwrap), if_neg hwrap, hsum]
    rfl

theorem Numbered.addjob (hc : Numbered t h) (ht : t.Takes pid) (hmax : t.nextjid ≠ Int32.maxValue) (state : JobState) :
    Numbered (t.addjob pid state).2 { h with added := h.added + 1 } := by
  have hnext := hc.next_add ht hmax state
  rcases t.addjob_cases pid state with ⟨hno, -⟩ | ⟨i, n, hpid, hi, he⟩
  · obtain ⟨hpid, i, hi⟩ := ht
    exact absurd hi (hno.resolve_left hpid i)
  rw [he] at hnext ⊢
  have hpid0 : pid ≠ 0 := by
    rintro rfl
    exact hpid (by decide)
  have hjob : ∀ k, (k = i ∧ (t.setJob i ⟨pid, t.nextjid, state⟩).jobs k = ⟨pid, t.nextjid, state⟩) ∨
      (k ≠ i ∧ (t.setJob i ⟨pid, t.nextjid, state⟩).jobs k = t.jobs k) := fun k => by
    by_cases hk : k = i
    · exact Or.inl ⟨hk, by rw [hk, Table.setJob_same]⟩
    · exact Or.inr ⟨hk, Table.setJob_of_ne hk⟩
  have hid : t.nextjid.toInt ≤ h.max + 1 + h.added := by
    rw [hc.next]
    unfold Since.next Since.wrapped
    split_ifs <;> omega
  refine ⟨hnext, fun k => ?_, fun k => ?_, ?_⟩
  · rcases hjob k with ⟨-, hk⟩ | ⟨-, hk⟩
    · show ((t.setJob i _).jobs k).jid.toInt ≤ _
      rw [hk]
      push_cast
      omega
    · have hle := hc.below k
      show ((t.setJob i _).jobs k).jid.toInt ≤ _
      rw [hk]
      push_cast
      omega
  · rcases hjob k with ⟨-, hk⟩ | ⟨-, hk⟩
    · show ((t.setJob i _).jobs k).jid.toInt < _
      rw [hk]
      have hle := t.nextjid.toInt_le
      have hne : t.nextjid.toInt ≠ Int32.maxValue.toInt := fun he => hmax (Int32.toInt_inj.mp he)
      rw [Int32.toInt_maxValue] at hle hne
      exact lt_of_le_of_ne hle hne
    · show ((t.setJob i _).jobs k).jid.toInt < _
      rw [hk]
      exact hc.small k
  · have htaken : insert i t.taken ⊆ (Table.taken { t.setJob i ⟨pid, t.nextjid, state⟩ with nextjid := n }) := by
      intro k hk
      rw [Table.mem_taken]
      show ((t.setJob i _).jobs k).pid ≠ 0
      rcases hjob k with ⟨-, hj⟩ | ⟨hne, hj⟩
      · rw [hj]
        exact hpid0
      · rw [hj]
        exact Table.mem_taken.mp ((Finset.mem_insert.mp hk).resolve_left hne)
    have hcard := Finset.card_le_card htaken
    rw [Finset.card_insert_of_notMem fun hm => Table.mem_taken.mp hm hi] at hcard
    exact (Nat.succ_le_succ hc.slots).trans hcard

theorem Numbered.deletejob (hc : Numbered t h) (ht : t.Clears pid) :
    Numbered (t.deletejob pid).2 ⟨(t.deletejob pid).2.maxjid.toInt.toNat, 0⟩ := by
  have hsmall : ∀ k, ((t.deletejob pid).2.jobs k).jid.toInt < 2147483647 := fun k => by
    rcases t.deletejob_cases pid with ⟨-, he⟩ | ⟨i, n, -, -, he⟩
    · rw [he]
      exact hc.small k
    · rw [he]
      show ((t.setJob i clearjob).jobs k).jid.toInt < _
      by_cases hk : k = i
      · rw [hk, Table.setJob_same]
        decide
      · rw [Table.setJob_of_ne hk]
        exact hc.small k
  have hmax : (t.deletejob pid).2.maxjid.toInt < 2147483647 := by
    rcases (t.deletejob pid).2.maxjid_cases with hm | ⟨i, hm⟩
    · rw [hm]
      decide
    · rw [hm]
      exact hsmall i
  have hnonneg := (t.deletejob pid).2.maxjid_nonneg
  refine ⟨?_, fun k => ?_, hsmall, Nat.zero_le _⟩
  · rw [Table.deletejob_nextjid ht, Int32.toInt_add, Int32.toInt_one, Int.bmod_eq_of_le (by omega) (by omega)]
    unfold Since.next Since.wrapped
    rw [if_pos (Nat.zero_sub _)]
    dsimp only
    omega
  · have hle := (t.deletejob pid).2.jid_le_maxjid k
    push_cast
    omega

/-- **The count is right** in every run. -/
theorem Numbered.step (hc : Numbered t h) (he : jobList.exec t c = some (r, t')) : Numbered t' (h.record t c) := by
  cases c with
  | addjob pid state =>
    change (if t.Takes pid ∧ t.nextjid = Int32.maxValue then none else some (t.addjob pid state)) = some (r, t') at he
    split_ifs at he with hwrap
    obtain rfl : (t.addjob pid state).2 = t' := congrArg Prod.snd (Option.some.inj he)
    by_cases ht : t.Takes pid
    · rw [Since.record, if_pos ht]
      exact hc.addjob ht (fun hm => hwrap ⟨ht, hm⟩) state
    · rw [Since.record, if_neg ht, Table.addjob_of_not_takes ht]
      exact hc
  | deletejob pid =>
    obtain rfl : (t.deletejob pid).2 = t' := congrArg Prod.snd (Option.some.inj he)
    by_cases ht : t.Clears pid
    · rw [Since.record, if_pos ht]
      exact hc.deletejob ht
    · rw [Since.record, if_neg ht, Table.deletejob_of_not_clears ht]
      exact hc

end Counting

/-! ## Runs -/

/-- A job that is added gets an ID above all others, below the largest `int`; or, behind the wrap, one that no live job
has. -/
def NoReuse (t : Table) (h : Since) : JobCall → Prop
  | .addjob pid _ => t.Takes pid →
    (h.wrapped = 0 → h.max + h.added + 1 < 2147483647) ∧
      (h.wrapped ≠ 0 → ∀ k, (t.jobs k).pid ≠ 0 → (t.jobs k).jid.toInt ≠ h.wrapped)
  | .deletejob _ => True

theorem noReuse_iff {t : Table} {h : Since} {pid : Int32} (hc : Numbered t h)
    (hmax : ¬ (t.Takes pid ∧ t.nextjid = Int32.maxValue)) (state : JobState) :
    NoReuse t h (.addjob pid state) ↔ (t.Takes pid → ∀ k, (t.jobs k).pid ≠ 0 → (t.jobs k).jid ≠ t.nextjid) := by
  refine forall_congr' fun ht => ?_
  have hnext := hc.next
  unfold Since.next at hnext
  by_cases hwrap : h.wrapped = 0
  · rw [if_pos hwrap] at hnext
    refine iff_of_true ⟨fun _ => ?_, fun hne => absurd hwrap hne⟩ fun k _ hjid => ?_
    · have hle := t.nextjid.toInt_le
      have hne : t.nextjid.toInt ≠ Int32.maxValue.toInt := fun he => hmax ⟨ht, Int32.toInt_inj.mp he⟩
      rw [Int32.toInt_maxValue] at hle hne
      omega
    · have hle := hc.below k
      rw [hjid, hnext] at hle
      push_cast at hle
      omega
  · rw [if_neg hwrap] at hnext
    rw [← hnext]
    constructor
    · rintro ⟨-, hnew⟩ k hk hjid
      exact hnew hwrap k hk (congrArg Int32.toInt hjid)
    · exact fun hnew => ⟨fun h0 => absurd h0 hwrap, fun _ k hk hjid => hnew k hk (Int32.toInt_inj.mp hjid)⟩

/-- **Job IDs name jobs** in exactly the runs without a reuse: after each call the IDs of the live jobs are distinct,
and `getjobjid` finds the only live job with its ID. -/
theorem jids_distinct_iff (calls : List JobCall) :
    jobList.Along (fun _ _ _ t => t.JidsDistinct ∧ t.JidsName) initjobs calls ↔
      (jobList.withHistory Since.record).Along (fun x c _ _ => NoReuse x.1 x.2 c) (initjobs, ⟨0, 0⟩) calls := by
  rw [← System.along_withHistory Since.record calls initjobs ⟨0, 0⟩]
  refine System.along_iff (I := fun x => x.1.JidsDistinct ∧ x.1.Cleared ∧ Numbered x.1 x.2) (L := fun _ => True) ?_
    calls _ ⟨fun i k hi => absurd rfl hi, fun _ _ => rfl, numbered_init⟩ fun _ _ => trivial
  rintro ⟨t, h⟩ c r ⟨t', h'⟩ ⟨hd, hc, hcount⟩ - he
  obtain ⟨⟨r₁, t₁⟩, he₁, he⟩ := Option.map_eq_some_iff.mp he
  obtain ⟨rfl, rfl, rfl⟩ : r₁ = r ∧ t₁ = t' ∧ h.record t c = h' := by
    simpa only [Prod.mk.injEq] using he
  have hcount' := hcount.step he₁
  have hnames : t₁.Cleared → (t₁.JidsDistinct ∧ t₁.JidsName ↔ t₁.JidsDistinct) := fun hc' =>
    and_iff_left_of_imp fun hd' => hd'.names hc'
  cases c with
  | addjob pid state =>
    change (if t.Takes pid ∧ t.nextjid = Int32.maxValue then none else some (t.addjob pid state)) = some (r₁, t₁) at he₁
    split_ifs at he₁ with hmax
    obtain rfl : (t.addjob pid state).2 = t₁ := congrArg Prod.snd (Option.some.inj he₁)
    have hc' := hc.addjob pid state
    have hiff := (Table.jidsDistinct_addjob hd pid state).trans (noReuse_iff hcount hmax state).symm
    exact ⟨(hnames hc').trans hiff, fun hq => ⟨hiff.mpr hq, hc', hcount'⟩⟩
  | deletejob pid =>
    obtain rfl : (t.deletejob pid).2 = t₁ := congrArg Prod.snd (Option.some.inj he₁)
    have hc' := hc.deletejob pid
    have hd' := hd.deletejob pid
    exact ⟨iff_of_true ((hnames hc').mpr hd') trivial, fun _ => ⟨hd', hc', hcount'⟩⟩

/-- Jobs 1 to 16 are added; when jobs 2 and 3 have gone, two more jobs get the IDs 17 and 1. -/
def reusedJid : List JobCall :=
  (List.range 16).map (fun i => .addjob (Int32.ofNat (i + 1)) .BG) ++
    [.deletejob 2, .deletejob 3, .addjob 17 .BG, .addjob 18 .BG]

theorem duplicate_jid : ∃ t, jobList.Reach t ∧ ¬ t.JidsDistinct := by
  have hrun : (jobList.after initjobs reusedJid).any (fun t =>
      (t.jobs 0).pid ≠ 0 ∧ (t.jobs 2).pid ≠ 0 ∧ (t.jobs 0).jid = (t.jobs 2).jid) = true := by
    decide +kernel
  obtain ⟨t, -, hreach, h0, h2, hjid⟩ := System.Reach.of_after (fun _ _ _ => trivial) rfl hrun
  refine ⟨t, hreach, fun hd => ?_⟩
  exact absurd (hd 0 2 h0 h2 hjid) (by decide)

end Csapp.Tsh
