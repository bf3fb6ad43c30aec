import Csapp.Tsh.Foreground

/-!
# Tsh.Children — when every child has a job

`eval` forks first and then calls `addjob`, whose result it does not look at.  With all slots taken the
child stays out of the job list, and the handler that reaps it ends the shell (`job_not_found`); in the
runs in which `eval` finds a free slot for every child this does not happen (`children_listed_iff`).
-/

namespace Csapp.Tsh

open Csapp.Lib

variable {s s' : State} {pid : Int32}

/-- Every child that has not been reaped has exactly one slot, but for the child that `eval` has just
forked, for which SIGCHLD is blocked; and the handler has not met an unknown child. -/
def Accounted (s : State) : Prop :=
  (∀ pid ∈ s.children, (∀ bg, s.main ≠ .forked bg pid) → ∃! i, (s.table.jobs i).pid = pid) ∧
    s.exited ≠ some .jobNotFound

/-- When `eval` calls `addjob`, a slot is free. -/
def FreeSlot (s : State) (e : Event) : Prop :=
  ∀ bg pid killed, s.main = .forked bg pid → e = .run killed → ∃ i, (s.table.jobs i).pid = 0

structure Counted (s : State) : Prop where
  entry : ∀ pid ∈ s.children, (∀ bg, s.main ≠ .forked bg pid) → ∃ i, (s.table.jobs i).pid = pid
  got : ∀ pid st, s.handler = .got pid st → ∃ i, (s.table.jobs i).pid = pid
  gone : ∀ pid, s.handler = .got pid .ended → pid ∉ s.children
  found : s.exited ≠ some .jobNotFound

namespace Counted

theorem accounted_iff (h : Inv s) : Accounted s ↔ (∀ pid ∈ s.children, (∀ bg, s.main ≠ .forked bg pid) →
    ∃ i, (s.table.jobs i).pid = pid) ∧ s.exited ≠ some .jobNotFound := by
  refine and_congr_left fun _ => forall_congr' fun pid => forall_congr' fun hpid => forall_congr' fun _ =>
    ⟨fun ⟨i, hi, _⟩ => ⟨i, hi⟩, fun ⟨i, hi⟩ => ⟨i, hi, fun k hk => ?_⟩⟩
  have hne : (s.table.jobs k).pid ≠ 0 := by
    rw [hk]
    exact h.ne_zero (Or.inl hpid)
  exact h.pids k i hne (hk.trans hi.symm)

theorem accounted (h : Counted s) (hI : Inv s) : Accounted s :=
  (accounted_iff hI).mpr ⟨h.entry, h.found⟩

/-- Steps that keep the pids in the list. -/
theorem frame (h : Counted s) (htab : ∀ i, (s'.table.jobs i).pid = (s.table.jobs i).pid)
    (hch : ∀ q, q ∈ s'.children → q ∈ s.children) (hmain : ∀ bg pid, s.main = .forked bg pid → s'.main = s.main)
    (hgot : s'.handler = s.handler ∨ ∀ pid st, s'.handler ≠ .got pid st)
    (hx : s'.exited ≠ some .jobNotFound) : Counted s' where
  entry pid hpid hf := by
    obtain ⟨i, hi⟩ := h.entry pid (hch pid hpid) fun bg he => hf bg ((hmain bg pid he).trans he)
    exact ⟨i, (htab i).trans hi⟩
  got pid st hg := by
    rcases hgot with he | he
    · obtain ⟨i, hi⟩ := h.got pid st (he ▸ hg)
      exact ⟨i, (htab i).trans hi⟩
    · exact absurd hg (he pid st)
  gone pid hg hpid := by
    rcases hgot with he | he
    · exact h.gone pid (he ▸ hg) (hch pid hpid)
    · exact he pid _ hg
  found := hx

/-- What `eval` leaves alone up to the point where SIGCHLD is blocked. -/
theorem eval (h : Counted s) {cmdline : Text} (hm : s.main = .evaluating cmdline) (killed : Bool) :
    Counted (s.eval cmdline killed) := by
  have hframe : ∀ s', s'.children = s.children → s'.handler = s.handler →
      (∀ i, (s'.table.jobs i).pid = (s.table.jobs i).pid) → s'.exited ≠ some .jobNotFound → Counted s' := by
    intro s' h1 h2 h3 h4
    refine h.frame h3 (fun q hq => h1 ▸ hq) (fun bg pid he => ?_) (Or.inl h2) h4
    cases hm.symm.trans he
  have hexit : ∀ s', s'.children = s.children → s'.handler = s.handler →
      (∀ i, (s'.table.jobs i).pid = (s.table.jobs i).pid) → ∀ e, e ≠ Exit.jobNotFound →
      Counted (State.exit s' e) := fun s' h1 h2 h3 e he =>
    hframe _ h1 h2 h3 fun hx => he (Option.some.inj hx)
  have hprompt : ∀ m, Counted { s with main := m } := fun m =>
    hframe _ rfl rfl (fun _ => rfl) h.found
  rw [State.eval]
  split
  · exact hexit s rfl rfl (fun _ => rfl) _ (by decide)
  · exact hprompt _
  · split_ifs
    · exact hexit s rfl rfl (fun _ => rfl) _ (by decide)
    · exact hprompt _
    · rw [State.do_bgfg]
      split
      · exact hprompt _
      · dsimp only
        split_ifs
        · exact hexit s rfl rfl (fun _ => rfl) _ (by decide)
        · exact hframe _ rfl rfl (fun _ => State.setState_pid) h.found
        · exact hexit (s.setState _ .BG) rfl rfl (fun _ => State.setState_pid) .killError (by decide)
        · exact hprompt _
        · exact hexit s rfl rfl (fun _ => rfl) _ (by decide)
        · exact hframe _ rfl rfl (fun _ => State.setState_pid) h.found
    · exact hprompt _

theorem register_eq (s : State) (bg : Bool) (pid : Int32) : ∃ susp main,
    s.register bg pid =
      { s with table := (s.table.addjob pid (if bg then .BG else .FG)).2, susp := susp, main := main } ∧
    ∀ bg pid, main ≠ .forked bg pid := by
  cases bg with
  | true => exact ⟨s.susp, .prompt, rfl, fun _ _ he => by cases he⟩
  | false => exact ⟨true, .suspended pid false, rfl, fun _ _ he => by cases he⟩

/-- The new child gets a slot exactly if one is free. -/
theorem register (h : Counted s) (hI : Inv s) {bg : Bool} (hm : s.main = .forked bg pid) :
    (Accounted (s.register bg pid) ↔ ∃ i, (s.table.jobs i).pid = 0) ∧
      ((∃ i, (s.table.jobs i).pid = 0) → Counted (s.register bg pid)) := by
  obtain ⟨hchild, hnew⟩ := hI.forked bg pid hm
  have hi := hI.handler_inactive (by rw [hm]; rfl)
  have hI' := hI.register hm
  obtain ⟨susp, main, he, hmain⟩ := register_eq s bg pid
  rw [he] at hI' ⊢
  rcases s.table.addjob_cases pid (if bg then .BG else .FG) with ⟨hno, ha⟩ | ⟨i, n, -, hfree, ha⟩
  · rw [ha] at hI' ⊢
    have hfull : ¬ ∃ i, (s.table.jobs i).pid = 0 := by
      rintro ⟨i, hi⟩
      rcases hno with hno | hno
      · exact hI.positive pid (Or.inl hchild) hno
      · exact hno i hi
    refine ⟨iff_of_false (fun hacc => ?_) hfull, fun hfree => absurd hfree hfull⟩
    obtain ⟨i, hpid, -⟩ := hacc.1 pid hchild fun bg' => hmain bg' pid
    exact hnew i hpid
  · rw [ha] at hI' ⊢
    have hc : Counted { s with
        table := { s.table.setJob i ⟨pid, s.table.nextjid, if bg then .BG else .FG⟩ with nextjid := n },
        susp := susp, main := main } :=
      { entry := by
          intro q hq _
          by_cases hqp : q = pid
          · refine ⟨i, ?_⟩
            rw [hqp]
            exact congrArg Job.pid Table.setJob_same
          · obtain ⟨k, hk⟩ := h.entry q hq fun bg' he' => hqp (Main.forked.inj (hm.symm.trans he')).2.symm
            refine ⟨k, (congrArg Job.pid (Table.setJob_of_ne ?_)).trans hk⟩
            rintro rfl
            exact hI.ne_zero (Or.inl hq) (hk.symm.trans hfree)
        got := fun q st hg => by cases hi.symm.trans hg
        gone := fun q hg => by cases hi.symm.trans hg
        found := h.found }
    exact ⟨iff_of_true (hc.accounted hI') ⟨i, hfree⟩, fun _ => hc⟩

theorem fork (h : Counted s) {bg : Bool} (hm : s.main = .blocked bg) (hi : s.handler = .inactive) :
    Counted { s with main := .forked bg pid, children := s.children.insert pid .running } where
  entry q hq hf := by
    rcases (AList.mem_insert _).mp hq with rfl | hq
    · exact absurd rfl (hf bg)
    · exact h.entry q hq fun bg' he => by cases hm.symm.trans he
  got q st hg := by cases hi.symm.trans hg
  gone q hg := by cases hi.symm.trans hg
  found := h.found

theorem setGot (h : Counted s) {st : Status} {children : AList fun _ : Int32 => Proc}
    (hm : s.main.unblocked = true) (hpid : pid ∈ s.children) (hsub : ∀ q, q ∈ children → q ∈ s.children)
    (hst : st = .ended → pid ∉ children) : Counted { s with handler := .got pid st, children := children } where
  entry q hq hf := h.entry q (hsub q hq) hf
  got q st' hg := by
    obtain ⟨rfl, -⟩ := Handler.got.inj hg
    exact h.entry pid hpid fun bg => Inv.ne_forked hm bg pid
  gone q hg := by
    obtain ⟨rfl, rfl⟩ := Handler.got.inj hg
    exact hst rfl
  found := h.found

/-- The job of a child that has ended is removed; every other child keeps its slot. -/
theorem removeEnded (h : Counted s) (hg : s.handler = .got pid .ended) (susp : Bool) :
    Counted { s with susp := susp, table := (s.table.deletejob pid).2, handler := .waiting } where
  entry q hq hf := by
    obtain ⟨k, hk⟩ := h.entry q hq hf
    have hqp : q ≠ pid := by
      rintro rfl
      exact h.gone q hg hq
    refine ⟨k, ?_⟩
    rcases s.table.deletejob_cases pid with ⟨-, he⟩ | ⟨l, n, -, hl, he⟩
    · rw [he]
      exact hk
    · rw [he]
      refine (congrArg Job.pid (Table.setJob_of_ne ?_)).trans hk
      rintro rfl
      exact hqp (hk.symm.trans hl)
  got q st he := by cases he
  gone q he := by cases he
  found := h.found

theorem handle (h : Counted s) (hI : Inv s) {st : Status} (hg : s.handler = .got pid st) :
    Counted (s.handle pid st) := by
  have hpos := hI.positive pid (Or.inr ⟨st, hg⟩)
  obtain ⟨i₀, hi₀⟩ := h.got pid st hg
  rw [State.handle]
  cases hf : s.table.getjobpid pid with
  | none => exact absurd hi₀ (Table.getjobpid_eq_none hf hpos i₀)
  | some i =>
    dsimp only
    cases st with
    | stopped =>
      have hframe : ∀ susp, Counted { s.setState i .ST with susp := susp, handler := .waiting } := fun susp =>
        h.frame (fun _ => State.setState_pid) (fun _ hq => hq) (fun _ _ _ => rfl)
          (Or.inr fun _ _ he => by cases he) h.found
      split_ifs
      · exact hframe false
      · exact hframe s.susp
    | ended =>
      split_ifs
      · exact h.removeEnded hg false
      · exact h.removeEnded hg s.susp

theorem wake (h : Counted s) : Counted s.wake := by
  rw [State.wake]
  split
  · next q w hm =>
    refine h.frame (fun _ => rfl) (fun _ hq => hq) (fun bg pid he => ?_) (Or.inl rfl) h.found
    cases hm.symm.trans he
  · exact h

theorem exit_ne (h : Counted s) {e : Exit} (he : e ≠ .jobNotFound) : Counted (s.exit e) :=
  { h with found := fun hx => he (Option.some.inj hx) }

/-- **One event**: every child has its slot afterwards exactly if there was a slot for the child that the
event may add. -/
theorem step (h : Counted s) (hI : Inv s) {e : Event} (hs : Step s e s') :
    (Accounted s' ↔ FreeSlot s e) ∧ (FreeSlot s e → Counted s') := by
  have hI' := hI.step hs
  have hno : ∀ {m}, s.main = m → (∀ bg pid, m ≠ .forked bg pid) → ∀ bg pid, s.main ≠ .forked bg pid :=
    fun hm hne bg pid he => hne bg pid (hm.symm.trans he)
  -- the events that add no job
  have hkeep : Counted s' → (∀ killed, e = .run killed → ∀ bg pid, s.main ≠ .forked bg pid) →
      (Accounted s' ↔ FreeSlot s e) ∧ (FreeSlot s e → Counted s') := fun hc hne =>
    ⟨iff_of_true (hc.accounted hI') fun bg pid killed hm he => absurd hm (hne killed he bg pid), fun _ => hc⟩
  cases hs with
  | line cmdline hm hi =>
    refine hkeep ?_ fun _ he => by cases he
    refine h.frame (fun _ => rfl) (fun _ hq => hq) (fun bg pid he => ?_) (Or.inl rfl) h.found
    cases hm.symm.trans he
  | eof => exact hkeep (h.exit_ne (by decide)) fun _ he => by cases he
  | eval cmdline killed hm hi => exact hkeep (h.eval hm killed) fun _ _ => hno hm fun _ _ he => by cases he
  | register bg pid killed hm =>
    obtain ⟨h1, h2⟩ := h.register hI hm
    have hfree : FreeSlot s (.run killed) ↔ ∃ i, (s.table.jobs i).pid = 0 :=
      ⟨fun hf => hf bg pid killed hm rfl, fun hf _ _ _ _ _ => hf⟩
    exact ⟨h1.trans hfree.symm, fun hf => h2 (hfree.mp hf)⟩
  | resume pid killed hm hi =>
    refine hkeep ?_ fun _ _ => hno hm fun _ _ he => by cases he
    refine h.frame (fun _ => rfl) (fun _ hq => hq) (fun bg pid he => ?_) (Or.inl rfl) h.found
    cases hm.symm.trans he
  | restore pid killed hm hi =>
    refine hkeep ?_ fun _ _ => hno hm fun _ _ he => by cases he
    refine h.frame (fun _ => rfl) (fun _ hq => hq) (fun bg pid he => ?_) (Or.inl rfl) h.found
    cases hm.symm.trans he
  | forkError => exact hkeep (h.exit_ne (by decide)) fun _ he => by cases he
  | fork bg pid hm hpos hpid =>
    exact hkeep (h.fork hm (hI.handler_inactive (by rw [hm]; rfl))) fun _ he => by cases he
  | child pid p hpid =>
    refine hkeep ?_ fun _ he => by cases he
    refine h.frame (fun _ => rfl) (fun q hq => ?_) (fun _ _ _ => rfl) (Or.inl rfl) h.found
    rcases (AList.mem_insert _).mp hq with rfl | hq
    · exact hpid
    · exact hq
  | sigchld hi hm =>
    refine hkeep ?_ fun _ he => by cases he
    exact h.frame (fun _ => rfl) (fun _ hq => hq) (fun _ _ _ => rfl) (Or.inr fun _ _ he => by cases he) h.found
  | interrupt killed =>
    refine hkeep ?_ fun _ he => by cases he
    rw [State.interrupt]
    split_ifs
    · exact h.exit_ne (by decide)
    · exact h.wake
  | sigquit => exact hkeep (h.exit_ne (by decide)) fun _ he => by cases he
  | none hw =>
    refine hkeep ?_ fun _ he => by cases he
    exact h.wake.frame (fun _ => rfl) (fun _ hq => hq) (fun _ _ _ => rfl) (Or.inr fun _ _ he => by cases he)
      h.wake.found
  | stopped pid hw hpid =>
    refine hkeep ?_ fun _ he => by cases he
    refine h.setGot (hI.active fun he => by cases hw.symm.trans he) hpid (fun q hq => ?_) fun he => by cases he
    rcases (AList.mem_insert _).mp hq with rfl | hq
    · exact hpid
    · exact hq
  | ended pid hw hpid =>
    refine hkeep ?_ fun _ he => by cases he
    exact h.setGot (hI.active fun he => by cases hw.symm.trans he) hpid
      (fun q hq => (AList.mem_erase.mp hq).2) fun _ hmem => (AList.mem_erase.mp hmem).1 rfl
  | handle pid status hg => exact hkeep (h.handle hI hg) fun _ he => by cases he

end Counted

/-! ## Runs -/

/-- **Every child is accounted for** in exactly the runs in which `eval` finds a free slot for every child:
after each event, a child that has not been reaped has exactly one slot, and the handler has not met an
unknown child. -/
theorem children_listed_iff (events : List Event) :
    shell.Along (fun _ _ _ s => Accounted s) .start events ↔
      shell.Along (fun s e _ _ => FreeSlot s e) .start events := by
  refine System.along_iff (I := fun s => Inv s ∧ Counted s) (L := fun _ => True) ?_ events .start
    ⟨Inv.start, ?_⟩ fun _ _ => trivial
  · rintro s e r s' ⟨hI, hc⟩ - he
    obtain ⟨-, hs⟩ := shell_exec he
    obtain ⟨h1, h2⟩ := hc.step hI hs
    exact ⟨h1, fun hf => ⟨hI.step hs, h2 hf⟩⟩
  · exact {
      entry := fun pid hpid => absurd hpid (AList.notMem_empty pid)
      got := fun _ _ hg => by cases hg
      gone := fun _ hg => by cases hg
      found := fun hx => by cases hx }

/-- Seventeen background jobs, of which the last one ends. -/
def overflowRun : List Event :=
  (List.range 17).flatMap (fun i =>
    [.line "./myspin 9 &\n".toList, .run true, .fork (some (Int32.ofNat (i + 1))), .run true]) ++
      [.child 17 .zombie, .sigchld, .waitpid (some 17), .handle]

theorem job_not_found : ∃ s, shell.Reach s ∧ s.exited = some .jobNotFound := by
  have hrun : (shell.after .start overflowRun).any (fun s => s.exited = some .jobNotFound) = true := by
    decide +kernel
  obtain ⟨s, -, hreach, hexit⟩ := System.Reach.of_after (fun _ _ _ => trivial) rfl hrun
  exact ⟨s, hreach, hexit⟩

end Csapp.Tsh
