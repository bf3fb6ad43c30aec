import Csapp.Tsh.Shell

/-!
# Tsh.Foreground — at most one foreground job

A job is in the foreground only while the main program stands in the `waitfg` for it, with `susp` set
(`Inv.fg`): the handler clears `susp` as it takes the job out of the foreground.  A pid in the job list is
a child that has not been reaped, or the one that the handler is about to remove (`Listed.known`), so
`Fork` gives no pid that is in the list, and the pids in the list are distinct.
-/

namespace Csapp.Tsh

open Csapp.Lib

variable {s s' : State} {i k : Fin MAXJOBS} {pid : Int32}

/-- The job list against the children. -/
structure Listed (s : State) : Prop where
  cleared : s.table.Cleared
  live : ∀ i, (s.table.jobs i).pid ≠ 0 → (s.table.jobs i).state ≠ .UNDEF
  pids : ∀ i k, (s.table.jobs i).pid ≠ 0 → (s.table.jobs i).pid = (s.table.jobs k).pid → i = k
  known : ∀ i, (s.table.jobs i).pid ≠ 0 →
    (s.table.jobs i).pid ∈ s.children ∨ s.handler = .got (s.table.jobs i).pid .ended
  positive : ∀ pid, pid ∈ s.children ∨ (∃ st, s.handler = .got pid st) → ¬ pid < 1

structure Inv (s : State) : Prop extends Listed s where
  forked : ∀ bg pid, s.main = .forked bg pid → pid ∈ s.children ∧ ∀ i, (s.table.jobs i).pid ≠ pid
  fg : ∀ i, (s.table.jobs i).state = .FG → s.susp = true ∧ ∃ w, s.main = .suspended (s.table.jobs i).pid w
  /-- `waitfg` stands for a job that is in the foreground, or has stopped, or has gone. -/
  waiting : ∀ pid, ((∃ w, s.main = .suspended pid w) ∨ s.main = .waited pid) →
    pid ≠ 0 ∧ ∀ i, (s.table.jobs i).pid = pid → (s.table.jobs i).state = .FG ∨ (s.table.jobs i).state = .ST
  active : s.handler ≠ .inactive → s.main.unblocked = true
  exit : s.exited ≠ some .unexpectedState

/-! ## The job list -/

namespace Table

variable {t : Table}

/-- `bg` and `fg` find live jobs. -/
theorem findArg_live (hc : t.Cleared) {arg : Text} (h : t.findArg arg = some i) : (t.jobs i).pid ≠ 0 := by
  intro h0
  have hclear := hc i h0
  unfold findArg at h
  split at h
  · obtain ⟨jid, -, hj⟩ := Option.bind_eq_some_iff.mp h
    obtain ⟨h1, h2⟩ := getjobjid_some hj
    rw [hclear] at h1
    rw [← h1] at h2
    exact h2 (by decide)
  · obtain ⟨pid, -, hp⟩ := Option.bind_eq_some_iff.mp h
    obtain ⟨h1, h2⟩ := getjobpid_some hp
    rw [h0] at h1
    rw [← h1] at h2
    exact h2 (by decide)

/-- A job of the list with a further job is an old one or the new one. -/
theorem addjob_jobs (t : Table) (pid : Int32) (st : JobState) (k : Fin MAXJOBS) :
    (t.addjob pid st).2.jobs k = t.jobs k ∨
      (((t.addjob pid st).2.jobs k).pid = pid ∧ ((t.addjob pid st).2.jobs k).state = st) := by
  rcases t.addjob_cases pid st with ⟨-, he⟩ | ⟨i, n, -, -, he⟩
  · rw [he]
    exact Or.inl rfl
  · rw [he]
    by_cases hki : k = i
    · rw [hki]
      exact Or.inr ⟨congrArg Job.pid Table.setJob_same, congrArg Job.state Table.setJob_same⟩
    · exact Or.inl (Table.setJob_of_ne hki)

end Table

namespace State

variable {st : JobState}

@[simp] theorem setState_pid : ((s.setState i st).table.jobs k).pid = (s.table.jobs k).pid := by
  by_cases hk : k = i
  · rw [hk]
    exact (congrArg Job.pid Table.setJob_same).trans rfl
  · exact congrArg Job.pid (Table.setJob_of_ne hk)

theorem setState_same : ((s.setState i st).table.jobs i).state = st := congrArg Job.state Table.setJob_same

theorem setState_of_ne (hk : k ≠ i) :
    ((s.setState i st).table.jobs k).state = (s.table.jobs k).state :=
  congrArg Job.state (Table.setJob_of_ne hk)

end State

namespace Listed

variable {st : JobState}

theorem ne_zero (h : Listed s) (hpid : pid ∈ s.children ∨ ∃ st, s.handler = .got pid st) : pid ≠ 0 := by
  rintro rfl
  exact h.positive 0 hpid (by decide)

theorem fg_live (h : Listed s) (hi : (s.table.jobs i).state = .FG) : (s.table.jobs i).pid ≠ 0 := by
  intro h0
  rw [h.cleared i h0] at hi
  cases hi

theorem setState (h : Listed s) (hi : (s.table.jobs i).pid ≠ 0) (hst : st ≠ .UNDEF) :
    Listed (s.setState i st) where
  cleared := h.cleared.setJob fun h0 => absurd h0 hi
  live k hk := by
    rw [State.setState_pid] at hk
    by_cases hki : k = i
    · rwa [hki, State.setState_same]
    · rw [State.setState_of_ne hki]
      exact h.live k hk
  pids k l hk hkl := by
    rw [State.setState_pid] at hk hkl
    rw [State.setState_pid] at hkl
    exact h.pids k l hk hkl
  known k hk := by
    rw [State.setState_pid] at hk ⊢
    exact h.known k hk
  positive := h.positive

/-- A child that is not in the list is added to it. -/
theorem addjob (h : Listed s) (hpid : pid ∈ s.children) (hnew : ∀ i, (s.table.jobs i).pid ≠ pid)
    (hst : st ≠ .UNDEF) : Listed { s with table := (s.table.addjob pid st).2 } := by
  have hcleared := h.cleared.addjob pid st
  rcases s.table.addjob_cases pid st with ⟨-, he⟩ | ⟨i, n, -, hi, he⟩
  · rw [he]
    exact h
  · rw [he] at hcleared ⊢
    have hsame : ((s.table.setJob i ⟨pid, s.table.nextjid, st⟩).jobs i) = ⟨pid, s.table.nextjid, st⟩ :=
      Table.setJob_same
    have hold : ∀ k, k ≠ i → (s.table.setJob i ⟨pid, s.table.nextjid, st⟩).jobs k = s.table.jobs k :=
      fun k hk => Table.setJob_of_ne hk
    refine ⟨hcleared, fun k hk => ?_, fun k l hk hkl => ?_, fun k hk => ?_, h.positive⟩
    · dsimp only at hk ⊢
      by_cases hki : k = i
      · rwa [hki, hsame]
      · rw [hold k hki] at hk ⊢
        exact h.live k hk
    · dsimp only at hk hkl
      by_cases hki : k = i
      · by_cases hli : l = i
        · rw [hki, hli]
        · rw [hki, hsame, hold l hli] at hkl
          exact absurd hkl.symm (hnew l)
      · rw [hold k hki] at hk hkl
        by_cases hli : l = i
        · rw [hli, hsame] at hkl
          exact absurd hkl (hnew k)
        · rw [hold l hli] at hkl
          exact h.pids k l hk hkl
    · dsimp only at hk ⊢
      by_cases hki : k = i
      · rw [hki, hsame]
        exact Or.inl hpid
      · rw [hold k hki] at hk ⊢
        exact h.known k hk

/-- The handler removes the job of a child that has ended. -/
theorem deletejob (h : Listed s) (hgot : s.handler = .got pid .ended) :
    Listed { s with table := (s.table.deletejob pid).2, handler := .waiting } ∧
      ∀ k, ((s.table.deletejob pid).2.jobs k).pid ≠ 0 →
        (s.table.deletejob pid).2.jobs k = s.table.jobs k ∧ (s.table.jobs k).pid ≠ pid := by
  have hcleared := h.cleared.deletejob pid
  have hpos := h.positive pid (Or.inr ⟨_, hgot⟩)
  have hne := h.ne_zero (Or.inr ⟨_, hgot⟩)
  have hold : ∀ k, ((s.table.deletejob pid).2.jobs k).pid ≠ 0 →
      (s.table.deletejob pid).2.jobs k = s.table.jobs k ∧ (s.table.jobs k).pid ≠ pid := by
    intro k hk
    rcases s.table.deletejob_cases pid with ⟨hno, he⟩ | ⟨i, n, -, hi, he⟩
    · rw [he]
      rcases hno with hno | hno
      · exact absurd hno hpos
      · exact ⟨rfl, hno k⟩
    · rw [he] at hk ⊢
      dsimp only at hk ⊢
      have hki : k ≠ i := by
        rintro rfl
        rw [Table.setJob_same] at hk
        exact hk rfl
      refine ⟨Table.setJob_of_ne hki, fun hkp => hki (h.pids k i ?_ (hkp.trans hi.symm))⟩
      rw [hkp]
      exact hne
  refine ⟨⟨hcleared, fun k hk => ?_, fun k l hk hkl => ?_, fun k hk => ?_, fun q hq => ?_⟩, hold⟩
  · dsimp only at hk ⊢
    obtain ⟨h1, -⟩ := hold k hk
    rw [h1] at hk ⊢
    exact h.live k hk
  · dsimp only at hk hkl
    have hl : ((s.table.deletejob pid).2.jobs l).pid ≠ 0 := hkl ▸ hk
    obtain ⟨hk', -⟩ := hold k hk
    rw [hk'] at hk hkl
    rw [(hold l hl).1] at hkl
    exact h.pids k l hk hkl
  · dsimp only at hk ⊢
    obtain ⟨h1, h2⟩ := hold k hk
    rw [h1] at hk ⊢
    rcases h.known k hk with hk' | hk'
    · exact Or.inl hk'
    · rw [hgot] at hk'
      exact absurd (Handler.got.inj hk').1.symm h2
  · rcases hq with hq | ⟨st, hq⟩
    · exact h.positive q (Or.inl hq)
    · cases hq

end Listed

/-! ## The main program -/

/-- The main program stands before a `fork`. -/
def Main.idle : Main → Bool
  | .prompt => true
  | .evaluating _ => true
  | .blocked _ => true
  | _ => false

namespace Inv

/-- There is no job in the foreground unless the main program stands in `waitfg`. -/
theorem no_fg (h : Inv s) (hm : ∀ pid w, s.main ≠ .suspended pid w) (i : Fin MAXJOBS) :
    (s.table.jobs i).state ≠ .FG := by
  intro hi
  obtain ⟨-, w, hw⟩ := h.fg i hi
  exact hm _ w hw

theorem handler_inactive (h : Inv s) (hm : s.main.unblocked = false) : s.handler = .inactive := by
  by_contra hne
  rw [h.active hne] at hm
  cases hm

theorem fg_unique (h : Inv s) (hi : (s.table.jobs i).state = .FG) (hk : (s.table.jobs k).state = .FG) :
    i = k := by
  obtain ⟨-, w, hw⟩ := h.fg i hi
  obtain ⟨-, w', hw'⟩ := h.fg k hk
  rw [hw] at hw'
  exact h.pids i k (h.fg_live hi) (Main.suspended.inj hw').1

/-- An exit of another kind. -/
theorem exit_ne (h : Inv s) {e : Exit} (he : e ≠ .unexpectedState) : Inv (s.exit e) :=
  { h with exit := fun h => he (Option.some.inj h) }

theorem idle (h : Listed s) (hi : s.handler = .inactive) (hx : s.exited ≠ some .unexpectedState)
    (hno : ∀ i, (s.table.jobs i).state ≠ .FG) {m : Main} (hm : m.idle = true) : Inv { s with main := m } :=
  { h with
    forked := by
      rintro bg pid rfl
      cases hm
    fg := fun i hi => absurd hi (hno i)
    waiting := by
      rintro pid (⟨w, rfl⟩ | rfl)
      · cases hm
      · cases hm
    active := fun hne => absurd hi hne
    exit := hx }

theorem waitfg (h : Listed s) (hx : s.exited ≠ some .unexpectedState) (h0 : pid ≠ 0)
    (hfg : ∀ i, (s.table.jobs i).state = .FG → (s.table.jobs i).pid = pid)
    (hpid : ∀ i, (s.table.jobs i).pid = pid → (s.table.jobs i).state = .FG) : Inv (s.waitfg pid) :=
  { h with
    forked := fun bg q he => by cases he
    fg := fun i hi => ⟨rfl, false, congrArg (Main.suspended · false) (hfg i hi).symm⟩
    waiting := by
      rintro q (⟨w, he⟩ | he)
      · obtain ⟨rfl, -⟩ := Main.suspended.inj he
        exact ⟨h0, fun i hi => Or.inl (hpid i hi)⟩
      · cases he
    active := fun _ => rfl
    exit := hx }

theorem ne_suspended {m : Main} (hm : m.idle = true) (pid : Int32) (w : Bool) : m ≠ .suspended pid w := by
  rintro rfl
  cases hm

theorem ne_forked {m : Main} (hm : m.unblocked = true) (bg : Bool) (pid : Int32) : m ≠ .forked bg pid := by
  rintro rfl
  cases hm

theorem do_bgfg (h : Inv s) (hi : s.handler = .inactive) (hm : s.main.idle = true) (name : Text)
    (arg : Option Text) (killed : Bool) : Inv (s.do_bgfg name arg killed) := by
  have hno := h.no_fg (ne_suspended hm)
  have hprompt : Inv { s with main := .prompt } := idle h.toListed hi h.exit hno rfl
  rw [State.do_bgfg]
  cases hf : arg.bind s.table.findArg with
  | none => exact hprompt
  | some i =>
    obtain ⟨arg, -, hf⟩ := Option.bind_eq_some_iff.mp hf
    have hlive := Table.findArg_live h.cleared hf
    dsimp only
    by_cases hst : (s.table.jobs i).state ≠ .BG ∧ (s.table.jobs i).state ≠ .ST
    · -- a live job that is not in the foreground
      cases hjob : (s.table.jobs i).state with
      | UNDEF => exact absurd hjob (h.live i hlive)
      | FG => exact absurd hjob (hno i)
      | BG => exact absurd hjob hst.1
      | ST => exact absurd hjob hst.2
    rw [if_neg hst]
    by_cases hname : name = "bg".toList
    · rw [if_pos hname]
      by_cases hjob : (s.table.jobs i).state = .ST
      · rw [if_pos hjob]
        have hbg : Listed (s.setState i .BG) := h.toListed.setState hlive (by decide)
        have hno' : ∀ k, ((s.setState i .BG).table.jobs k).state ≠ .FG := by
          intro k
          by_cases hki : k = i
          · rw [hki, State.setState_same]
            decide
          · rw [State.setState_of_ne hki]
            exact hno k
        cases killed with
        | true => exact idle hbg hi h.exit hno' rfl
        | false => exact (idle (m := s.main) hbg hi h.exit hno' hm).exit_ne (by decide)
      · rw [if_neg hjob]
        exact hprompt
    · rw [if_neg hname]
      by_cases hk : (s.table.jobs i).state = .ST ∧ killed = false
      · rw [if_pos hk]
        exact h.exit_ne (by decide)
      · rw [if_neg hk]
        refine waitfg (h.toListed.setState hlive (by decide)) h.exit hlive (fun k hk => ?_) fun k hk => ?_
        · by_cases hki : k = i
          · rw [hki, State.setState_pid]
          · rw [State.setState_of_ne hki] at hk
            exact absurd hk (hno k)
        · rw [State.setState_pid] at hk
          rw [h.pids i k hlive hk.symm, State.setState_same]

theorem eval (h : Inv s) (hi : s.handler = .inactive) (hm : s.main.idle = true) (cmdline : Text)
    (killed : Bool) : Inv (s.eval cmdline killed) := by
  have hidle : ∀ {m : Main}, m.idle = true → Inv { s with main := m } := fun hm' =>
    idle h.toListed hi h.exit (h.no_fg (ne_suspended hm)) hm'
  rw [State.eval]
  split
  · exact h.exit_ne (by decide)
  · exact hidle rfl
  · split_ifs
    · exact h.exit_ne (by decide)
    · exact hidle rfl
    · exact h.do_bgfg hi hm _ _ killed
    · exact hidle rfl

theorem register (h : Inv s) {bg : Bool} (hm : s.main = .forked bg pid) : Inv (s.register bg pid) := by
  obtain ⟨hchild, hnew⟩ := h.forked bg pid hm
  have hi := h.handler_inactive (by rw [hm]; rfl)
  have hno : ∀ i, (s.table.jobs i).state ≠ .FG := h.no_fg fun q w he => by
    cases hm.symm.trans he
  rw [State.register]
  cases bg with
  | true =>
    refine idle (m := .prompt) (h.toListed.addjob hchild hnew (by decide)) hi h.exit (fun i => ?_) rfl
    rcases s.table.addjob_jobs pid .BG i with he | ⟨-, he⟩
    · intro hfg
      refine hno i ?_
      rw [← he]
      exact hfg
    · intro hfg
      cases he.symm.trans hfg
  | false =>
    refine waitfg (h.toListed.addjob hchild hnew (by decide)) h.exit (h.ne_zero (Or.inl hchild))
      (fun i hfg => ?_) fun i hpid => ?_
    · rcases s.table.addjob_jobs pid .FG i with he | ⟨he, -⟩
      · refine absurd ?_ (hno i)
        rw [← he]
        exact hfg
      · exact he
    · rcases s.table.addjob_jobs pid .FG i with he | ⟨-, he⟩
      · refine absurd ?_ (hnew i)
        rw [← he]
        exact hpid
      · exact he

/-- The loop of `waitfg` tests `susp`. -/
theorem resume (h : Inv s) (hm : s.main = .suspended pid true) (hi : s.handler = .inactive) :
    Inv { s with main := if s.susp then .suspended pid false else .waited pid } := by
  have hwait := h.waiting pid (Or.inl ⟨true, hm⟩)
  cases hs : s.susp with
  | true =>
    exact { h with
      forked := fun bg q he => by cases he
      fg := fun i hfg => by
        obtain ⟨-, w, hw⟩ := h.fg i hfg
        rw [hm] at hw
        exact ⟨rfl, false, congrArg (Main.suspended · false) (Main.suspended.inj hw).1⟩
      waiting := by
        rintro q (⟨w, he⟩ | he)
        · exact (Main.suspended.inj he).1 ▸ hwait
        · cases he
      active := fun _ => rfl }
  | false =>
    have hno : ∀ i, (s.table.jobs i).state ≠ .FG := by
      intro i hfg
      have := (h.fg i hfg).1
      rw [hs] at this
      cases this
    exact { h with
      forked := fun bg q he => by cases he
      fg := fun i hfg => absurd hfg (hno i)
      waiting := by
        rintro q (⟨w, he⟩ | he)
        · cases he
        · exact Main.waited.inj he ▸ hwait
      active := fun hne => absurd hi hne }

theorem restore (h : Inv s) (hm : s.main = .waited pid) (hi : s.handler = .inactive) :
    Inv { s with main := .prompt } := by
  refine idle h.toListed hi h.exit (h.no_fg fun q w he => ?_) rfl
  cases hm.symm.trans he

theorem fork (h : Inv s) {bg : Bool} (hm : s.main = .blocked bg) (hpos : ¬ pid < 1) (hpid : pid ∉ s.children) :
    Inv { s with main := .forked bg pid, children := s.children.insert pid .running } := by
  have hi := h.handler_inactive (by rw [hm]; rfl)
  have hknown : ∀ i, (s.table.jobs i).pid ≠ 0 → (s.table.jobs i).pid ∈ s.children := by
    intro i hne
    refine (h.known i hne).resolve_right fun he => ?_
    cases hi.symm.trans he
  exact { h with
    known := fun i hne => Or.inl ((AList.mem_insert _).mpr (Or.inr (hknown i hne)))
    positive := by
      rintro q (hq | ⟨st, hq⟩)
      · rcases (AList.mem_insert _).mp hq with rfl | hq
        · exact hpos
        · exact h.positive q (Or.inl hq)
      · exact h.positive q (Or.inr ⟨st, hq⟩)
    forked := by
      intro bg' q he
      obtain ⟨-, rfl⟩ := Main.forked.inj he
      refine ⟨(AList.mem_insert _).mpr (Or.inl rfl), fun i hq => hpid ?_⟩
      rw [← hq]
      refine hknown i fun h0 => hpos ?_
      rw [← hq, h0]
      decide
    fg := fun i hfg => by
      refine absurd hfg (h.no_fg (fun q w he => ?_) i)
      cases hm.symm.trans he
    waiting := by
      rintro q (⟨w, he⟩ | he)
      · cases he
      · cases he
    active := fun hne => absurd hi hne }

/-! ## The handlers -/

theorem wake (h : Inv s) : Inv s.wake := by
  rw [State.wake]
  split
  · next pid w hm =>
    exact { h with
      forked := fun bg q he => by cases he
      fg := fun i hfg => by
        obtain ⟨hs, w', hw⟩ := h.fg i hfg
        rw [hm] at hw
        exact ⟨hs, true, congrArg (Main.suspended · true) (Main.suspended.inj hw).1⟩
      waiting := by
        rintro q (⟨w', he⟩ | he)
        · exact (Main.suspended.inj he).1 ▸ h.waiting pid (Or.inl ⟨w, hm⟩)
        · cases he
      active := fun _ => rfl }
  · exact h

theorem interrupt (h : Inv s) (killed : Bool) : Inv (s.interrupt killed) := by
  rw [State.interrupt]
  split_ifs
  · exact h.exit_ne (by decide)
  · exact h.wake

/-- The handler becomes inactive, or goes on to another `waitpid`. -/
theorem setHandler (h : Inv s) (hg : ∀ pid st, s.handler ≠ .got pid st) {hd : Handler}
    (hhd : ∀ pid st, hd ≠ .got pid st) (ha : hd ≠ .inactive → s.main.unblocked = true) :
    Inv { s with handler := hd } :=
  { h with
    known := fun i hne => Or.inl ((h.known i hne).resolve_right (hg _ _))
    positive := by
      rintro q (hq | ⟨st, hq⟩)
      · exact h.positive q (Or.inl hq)
      · exact absurd hq (hhd q st)
    active := ha }

/-- `waitpid` has returned `pid`, which stays a child if it has only stopped. -/
theorem setGot (h : Inv s) (hw : s.handler = .waiting) {st : Status} {children : AList fun _ : Int32 => Proc}
    (hpid : pid ∈ s.children) (hsub : ∀ q, q ∈ children → q ∈ s.children)
    (hsup : ∀ q, q ∈ s.children → q ∈ children ∨ (st = .ended ∧ q = pid)) :
    Inv { s with handler := .got pid st, children := children } := by
  have hact : s.main.unblocked = true := h.active (by rw [hw]; intro he; cases he)
  exact { h with
    known := by
      intro i hne
      have hknown := (h.known i hne).resolve_right (by rw [hw]; intro he; cases he)
      rcases hsup _ hknown with hc | ⟨rfl, he⟩
      · exact Or.inl hc
      · exact Or.inr (congrArg (Handler.got · .ended) he.symm)
    positive := by
      rintro q (hq | ⟨st', he⟩)
      · exact h.positive q (Or.inl (hsub q hq))
      · exact h.positive q (Or.inl ((Handler.got.inj he).1 ▸ hpid))
    forked := fun bg q he => absurd he (ne_forked hact bg q)
    active := fun _ => hact }

/-- `waitpid` has nothing to report. -/
theorem done (h : Inv s) (hw : s.handler = .waiting) : Inv { s.wake with handler := .inactive } := by
  have hh : s.wake.handler = .waiting := by
    rw [State.wake]
    split
    · exact hw
    · exact hw
  refine h.wake.setHandler (fun pid st he => ?_) (fun pid st he => by cases he) fun hne => absurd rfl hne
  cases hh.symm.trans he

theorem stopped (h : Inv s) (hw : s.handler = .waiting) (hpid : pid ∈ s.children) :
    Inv { s with handler := .got pid .stopped, children := s.children.insert pid (.stopped true) } := by
  refine h.setGot hw hpid (fun q hq => ?_) fun q hq => Or.inl ((AList.mem_insert _).mpr (Or.inr hq))
  rcases (AList.mem_insert _).mp hq with rfl | hq
  · exact hpid
  · exact hq

theorem ended (h : Inv s) (hw : s.handler = .waiting) (hpid : pid ∈ s.children) :
    Inv { s with handler := .got pid .ended, children := s.children.erase pid } := by
  refine h.setGot hw hpid (fun q hq => (AList.mem_erase.mp hq).2) fun q hq => ?_
  by_cases hqp : q = pid
  · exact Or.inr ⟨rfl, hqp⟩
  · exact Or.inl (AList.mem_erase.mpr ⟨hqp, hq⟩)

/-- The handler runs only where the main program lets it. -/
theorem unblocked_of_got (h : Inv s) {st : Status} (hg : s.handler = .got pid st) : s.main.unblocked = true :=
  h.active (by rw [hg]; intro he; cases he)

/-- Another job in the foreground, and then not this one. -/
theorem fg_other (h : Inv s) (hki : k ≠ i) (hk : (s.table.jobs k).state = .FG) :
    (s.table.jobs i).state ≠ .FG ∧ s.susp = true ∧ ∃ w, s.main = .suspended (s.table.jobs k).pid w :=
  ⟨fun hi => hki (h.fg_unique hk hi), h.fg k hk⟩

/-- The job has stopped; `susp` is cleared if it was in the foreground. -/
theorem setStopped (h : Inv s) (hg : s.handler = .got pid .stopped) (hlive : (s.table.jobs i).pid ≠ 0)
    {susp : Bool} (hsusp : (s.table.jobs i).state ≠ .FG → susp = s.susp) :
    Inv { s.setState i .ST with susp := susp, handler := .waiting } := by
  have hl : Listed (s.setState i .ST) := h.toListed.setState hlive (by decide)
  have hact := h.unblocked_of_got hg
  exact { hl with
    known := fun k hk => Or.inl ((hl.known k hk).resolve_right fun he => by
      cases (Handler.got.inj (hg.symm.trans he)).2)
    positive := by
      rintro q (hq | ⟨st, he⟩)
      · exact h.positive q (Or.inl hq)
      · cases he
    forked := fun bg q he => absurd he (ne_forked hact bg q)
    fg := by
      intro k hk
      have hki : k ≠ i := by
        rintro rfl
        cases State.setState_same.symm.trans hk
      obtain ⟨h1, h2, w, hw⟩ := h.fg_other hki ((State.setState_of_ne hki).symm.trans hk)
      exact ⟨(hsusp h1).trans h2, w, hw.trans (congrArg (Main.suspended · w) State.setState_pid.symm)⟩
    waiting := by
      intro q hq
      refine ⟨(h.waiting q hq).1, fun k hk => ?_⟩
      by_cases hki : k = i
      · rw [hki]
        exact Or.inr State.setState_same
      · have := (h.waiting q hq).2 k (State.setState_pid.symm.trans hk)
        rwa [← State.setState_of_ne (s := s) (i := i) hki] at this
    active := fun _ => hact
    exit := h.exit }

/-- The job has ended; `susp` is cleared if it was in the foreground. -/
theorem removeEnded (h : Inv s) (hg : s.handler = .got pid .ended) (hi : (s.table.jobs i).pid = pid)
    {susp : Bool} (hsusp : (s.table.jobs i).state ≠ .FG → susp = s.susp) :
    Inv { s with susp := susp, table := (s.table.deletejob pid).2, handler := .waiting } := by
  obtain ⟨hl, hold⟩ := h.toListed.deletejob hg
  have hact := h.unblocked_of_got hg
  exact { hl with
    forked := fun bg q he => absurd he (ne_forked hact bg q)
    fg := by
      intro k hk
      obtain ⟨h1, h2⟩ := hold k (hl.fg_live hk)
      dsimp only at hk ⊢
      rw [h1] at hk ⊢
      have hki : k ≠ i := by
        rintro rfl
        exact h2 hi
      obtain ⟨h3, h4, h5⟩ := h.fg_other hki hk
      exact ⟨(hsusp h3).trans h4, h5⟩
    waiting := by
      intro q hq
      obtain ⟨hq0, hwait⟩ := h.waiting q hq
      refine ⟨hq0, fun k hk => ?_⟩
      dsimp only at hk ⊢
      obtain ⟨h1, -⟩ := hold k (hk.symm ▸ hq0)
      rw [h1] at hk ⊢
      exact hwait k hk
    active := fun _ => hact
    exit := h.exit }

theorem handle (h : Inv s) {st : Status} (hg : s.handler = .got pid st) : Inv (s.handle pid st) := by
  rw [State.handle]
  cases hf : s.table.getjobpid pid with
  | none => exact h.exit_ne (by decide)
  | some i =>
    obtain ⟨hi, -⟩ := Table.getjobpid_some hf
    have hlive : (s.table.jobs i).pid ≠ 0 := hi ▸ h.ne_zero (Or.inr ⟨st, hg⟩)
    dsimp only
    by_cases hjob : (s.table.jobs i).state = .FG
    · rw [if_pos hjob]
      cases st with
      | stopped => exact h.setStopped hg hlive fun hne => absurd hjob hne
      | ended => exact h.removeEnded hg hi fun hne => absurd hjob hne
    · rw [if_neg hjob]
      cases st with
      | stopped => exact h.setStopped hg hlive fun _ => rfl
      | ended => exact h.removeEnded hg hi fun _ => rfl

theorem child (h : Inv s) (hpid : pid ∈ s.children) (p : Proc) :
    Inv { s with children := s.children.insert pid p, pending := true } := by
  have hiff : ∀ q, q ∈ s.children.insert pid p ↔ q ∈ s.children := fun q => by
    rw [AList.mem_insert]
    exact or_iff_right_of_imp fun he => he ▸ hpid
  exact { h with
    known := fun i hne => (h.known i hne).imp_left (hiff _).mpr
    positive := fun q hq => h.positive q (hq.imp_left (hiff q).mp)
    forked := fun bg q he => (h.forked bg q he).imp_left (hiff q).mpr }

/-- **One event.** -/
theorem step (h : Inv s) {e : Event} (hs : Step s e s') : Inv s' := by
  cases hs with
  | line cmdline hm hi => exact idle h.toListed hi h.exit (h.no_fg (ne_suspended (by rw [hm]; rfl))) rfl
  | eof => exact h.exit_ne (by decide)
  | eval cmdline killed hm hi => exact h.eval hi (by rw [hm]; rfl) cmdline killed
  | register bg pid killed hm => exact h.register hm
  | resume pid killed hm hi => exact h.resume hm hi
  | restore pid killed hm hi => exact h.restore hm hi
  | forkError => exact h.exit_ne (by decide)
  | fork bg pid hm hpos hpid => exact h.fork hm hpos hpid
  | child pid p hpid => exact h.child hpid p
  | sigchld hi hm =>
    have hw : Inv { s with handler := .waiting } := h.setHandler (fun pid st he => by cases hi.symm.trans he)
      (fun pid st he => by cases he) fun _ => hm
    exact { hw with }
  | interrupt killed => exact h.interrupt killed
  | sigquit => exact h.exit_ne (by decide)
  | none hw => exact h.done hw
  | stopped pid hw hpid => exact h.stopped hw hpid
  | ended pid hw hpid => exact h.ended hw hpid
  | handle pid status hg => exact h.handle hg

end Inv

/-! ## Runs -/

theorem Inv.start : Inv .start where
  cleared _ _ := rfl
  live _ h := absurd rfl h
  pids _ _ h := absurd rfl h
  known _ h := absurd rfl h
  positive pid h := by
    rcases h with h | ⟨st, h⟩
    · exact absurd h (AList.notMem_empty pid)
    · cases h
  forked _ _ h := by cases h
  fg _ h := by cases h
  waiting _ h := by
    rcases h with ⟨w, h⟩ | h
    · cases h
    · cases h
  active h := absurd rfl h
  exit h := by cases h

theorem inv_reach (h : shell.Reach s) : Inv s := by
  refine System.Reach.induct (S := shell) ?_ (fun _ _ _ _ hI _ he => hI.step (shell_exec he).2) h
  intro t ht
  rw [show t = .start from ht]
  exact Inv.start

/-- **The foreground job**, in every run: there is at most one, and none at the prompt; `waitfg` returns
when its job has stopped or is not in the list any more; and `do_bgfg` finds no job in an unexpected
state. -/
theorem foreground_reach (h : shell.Reach s) :
    (∀ i k, (s.table.jobs i).state = .FG → (s.table.jobs k).state = .FG → i = k) ∧
      (s.main = .prompt → ∀ i, (s.table.jobs i).state ≠ .FG) ∧
      (∀ pid, s.main = .waited pid → ∀ i, (s.table.jobs i).pid = pid → (s.table.jobs i).state = .ST) ∧
      s.exited ≠ some .unexpectedState := by
  have hI := inv_reach h
  refine ⟨fun i k => hI.fg_unique, fun hm => hI.no_fg ?_, fun pid hm i hi => ?_, hI.exit⟩
  · rw [hm]
    exact fun pid w he => by cases he
  · refine ((hI.waiting pid (Or.inr hm)).2 i hi).resolve_left (hI.no_fg (fun q w he => ?_) i)
    cases hm.symm.trans he

/-- A foreground job that stops: `waitfg` returns with the job in the list. -/
def stoppedRun : List Event :=
  [.line "./myspin 4\n".toList, .run true, .fork (some 7), .run true, .child 7 (.stopped false), .sigchld,
    .waitpid (some 7), .handle, .waitpid none, .run true]

theorem foreground_reach_sample : ∃ s, shell.after .start stoppedRun = some s ∧ s.main = .waited 7 ∧
    (s.table.jobs 0).pid = 7 ∧ (s.table.jobs 0).state = .ST := by
  have hrun : (shell.after .start stoppedRun).any (fun s => s.main = .waited 7 ∧ (s.table.jobs 0).pid = 7) =
      true := by decide +kernel
  obtain ⟨s, hs, hreach, hm, hpid⟩ := System.Reach.of_after (fun _ _ _ => trivial) rfl hrun
  exact ⟨s, hs, hm, hpid, (foreground_reach hreach).2.2.1 7 hm 0 hpid⟩

end Csapp.Tsh
