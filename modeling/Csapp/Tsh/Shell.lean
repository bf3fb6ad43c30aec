import Csapp.Lib.Run
import Csapp.Tsh.Parse
import Mathlib.Data.List.AList

/-!
# Tsh.Shell — the shell, its signal handlers and its children

The main program and the SIGCHLD handler share the job list and `susp`.  Between two changes of the
signal mask the main program goes in one step: where all signals are blocked nothing can come between,
and where none is it does not touch what they share.  A handler that is active stands on top of the main
program, which goes on after it.

The kernel keeps a state for every child that has not been reaped; a child stops, goes on or ends at any
time.  `waitpid` reports a child that has stopped since the last report, or has ended.  What `kill` does to
a process is left to the events of the child, and it may fail.
-/

namespace Csapp.Tsh

open Csapp.Lib

/-- A child as the kernel sees it: running, stopped (and whether `waitpid` has reported it), or a zombie. -/
inductive Proc
  | running
  | stopped (reported : Bool)
  | zombie
  deriving DecidableEq

def Proc.Changes : Proc → Proc → Bool
  | .running, .stopped false => true
  | .stopped _, .running => true
  | .running, .zombie => true
  | .stopped _, .zombie => true
  | _, _ => false

def Proc.reportable : Proc → Bool
  | .stopped false => true
  | .zombie => true
  | _ => false

/-- `WIFSTOPPED(status)` or not. -/
inductive Status
  | stopped
  | ended
  deriving DecidableEq

/-- The SIGCHLD handler: before a `waitpid`, or after one that returned a pid. -/
inductive Handler
  | inactive
  | waiting
  | got (pid : Int32) (status : Status)
  deriving DecidableEq

/-- Where the main program stands. -/
inductive Main
  /-- in `fgets` -/
  | prompt
  /-- in `eval`, before a signal is blocked -/
  | evaluating (cmdline : Text)
  /-- in `eval`, before `Fork` -/
  | blocked (bg : Bool)
  /-- in `eval`, after `Fork` -/
  | forked (bg : Bool) (pid : Int32)
  /-- in the `Sigsuspend` of `waitfg`, which returns when a handler has run -/
  | suspended (pid : Int32) (woken : Bool)
  /-- after `waitfg` -/
  | waited (pid : Int32)
  deriving DecidableEq

/-- The ways in which the shell ends. -/
inductive Exit
  | endOfFile
  | quit
  | sigquit
  | forkError
  | killError
  | unexpectedState
  | jobNotFound
  /-- a command line for which `parseline` leaves its arrays -/
  | outOfBounds
  deriving DecidableEq

structure State where
  table : Table
  susp : Bool
  main : Main
  handler : Handler
  children : AList fun _ : Int32 => Proc
  /-- a SIGCHLD is pending -/
  pending : Bool
  exited : Option Exit

def State.start : State := ⟨initjobs, false, .prompt, .inactive, ∅, false, none⟩

/-- SIGCHLD is not blocked. -/
def Main.unblocked : Main → Bool
  | .prompt => true
  | .evaluating _ => true
  | .suspended _ _ => true
  | _ => false

/-- SIGINT, SIGTSTP and SIGQUIT are not blocked. -/
def Main.interruptible : Main → Bool
  | .blocked _ => true
  | .forked _ _ => true
  | m => m.unblocked

namespace State

/-! ## The main program -/

def exit (s : State) (e : Exit) : State := { s with exited := some e }

/-- Sets the state of a job. -/
def setState (s : State) (i : Fin MAXJOBS) (state : JobState) : State :=
  { s with table := s.table.setJob i { s.table.jobs i with state } }

/-- `waitfg`, up to its first `Sigsuspend`. -/
def waitfg (s : State) (pid : Int32) : State := { s with susp := true, main := .suspended pid false }

/-- `do_bgfg`; `killed` tells whether `kill` succeeds. -/
def do_bgfg (s : State) (name : Text) (arg : Option Text) (killed : Bool) : State :=
  match arg.bind s.table.findArg with
  | none => { s with main := .prompt }
  | some i =>
    let job := s.table.jobs i
    if job.state ≠ .BG ∧ job.state ≠ .ST then s.exit .unexpectedState
    else if name = "bg".toList then
      if job.state = .ST then
        let s := s.setState i .BG
        if killed then { s with main := .prompt } else s.exit .killError
      else { s with main := .prompt }
    else if job.state = .ST ∧ killed = false then s.exit .killError
    else (s.setState i .FG).waitfg job.pid

/-- `eval`, up to the point where SIGCHLD is blocked; `builtin_cmd` is in it. -/
def eval (s : State) (cmdline : Text) (killed : Bool) : State :=
  match parseline cmdline with
  | none => s.exit .outOfBounds
  | some (_, []) => { s with main := .prompt }
  | some (bg, name :: args) =>
    if name = "quit".toList then s.exit .quit
    else if name = "jobs".toList then { s with main := .prompt }
    else if name = "bg".toList ∨ name = "fg".toList then s.do_bgfg name args.head? killed
    else { s with main := .blocked bg }

/-- `eval`, from `addjob` on. -/
def register (s : State) (bg : Bool) (pid : Int32) : State :=
  let s := { s with table := (s.table.addjob pid (if bg then .BG else .FG)).2 }
  if bg then { s with main := .prompt } else s.waitfg pid

/-- The main program goes on. -/
def run (s : State) (killed : Bool) : Option State :=
  match s.main with
  | .evaluating cmdline => some (s.eval cmdline killed)
  | .forked bg pid => some (s.register bg pid)
  | .suspended pid true => some { s with main := if s.susp then .suspended pid false else .waited pid }
  | .waited _ => some { s with main := .prompt }
  | _ => none

/-- The result of `Fork`: an error, or a pid that no child has. -/
def fork (s : State) (pid : Option Int32) : Option State :=
  match s.main, pid with
  | .blocked _, none => some (s.exit .forkError)
  | .blocked bg, some pid =>
    if ¬ pid < 1 ∧ pid ∉ s.children then
      some { s with main := .forked bg pid, children := s.children.insert pid .running }
    else none
  | _, _ => none

/-! ## The handlers -/

/-- A handler returns. -/
def wake (s : State) : State :=
  match s.main with
  | .suspended pid _ => { s with main := .suspended pid true }
  | _ => s

/-- `sigint_handler` and `sigtstp_handler`. -/
def interrupt (s : State) (killed : Bool) : State :=
  if s.table.fgpid > 0 ∧ killed = false then s.exit .killError else s.wake

/-- `waitpid` in `sigchld_handler`. -/
def waitpid (s : State) : Option Int32 → Option State
  | none =>
    if s.children.entries.all fun c => !c.2.reportable then some { s.wake with handler := .inactive } else none
  | some pid =>
    match s.children.lookup pid with
    | some (.stopped false) =>
      some { s with handler := .got pid .stopped, children := s.children.insert pid (.stopped true) }
    | some .zombie => some { s with handler := .got pid .ended, children := s.children.erase pid }
    | _ => none

/-- The body of the loop of `sigchld_handler`. -/
def handle (s : State) (pid : Int32) (status : Status) : State :=
  match s.table.getjobpid pid with
  | none => s.exit .jobNotFound
  | some i =>
    let s := if (s.table.jobs i).state = .FG then { s with susp := false } else s
    match status with
    | .stopped => { s.setState i .ST with handler := .waiting }
    | .ended => { s with table := (s.table.deletejob pid).2, handler := .waiting }

end State

/-! ## The system -/

inductive Event
  /-- `fgets` has read a line -/
  | line (cmdline : Text)
  | eof
  | run (killed : Bool)
  | fork (pid : Option Int32)
  | child (pid : Int32) (p : Proc)
  /-- SIGCHLD is delivered -/
  | sigchld
  /-- SIGINT or SIGTSTP is delivered -/
  | interrupt (killed : Bool)
  | sigquit
  | waitpid (pid : Option Int32)
  | handle

/-- `none` if the event cannot happen. -/
def State.step (s : State) (e : Event) : Option State :=
  if s.exited.isSome then none else
  match e with
  | .line cmdline =>
    if s.main = .prompt ∧ s.handler = .inactive ∧ cmdline.length < MAXLINE ∧ '\x00' ∉ cmdline then
      some { s with main := .evaluating cmdline }
    else none
  | .eof => if s.main = .prompt ∧ s.handler = .inactive then some (s.exit .endOfFile) else none
  | .run killed => if s.handler = .inactive then s.run killed else none
  | .fork pid => s.fork pid
  | .child pid p =>
    match s.children.lookup pid with
    | none => none
    | some p' =>
      if p'.Changes p then some { s with children := s.children.insert pid p, pending := true } else none
  | .sigchld =>
    if s.pending = true ∧ s.handler = .inactive ∧ s.main.unblocked = true then
      some { s with handler := .waiting, pending := false }
    else none
  | .interrupt killed => if s.main.interruptible then some (s.interrupt killed) else none
  | .sigquit => if s.main.interruptible then some (s.exit .sigquit) else none
  | .waitpid pid => if s.handler = .waiting then s.waitpid pid else none
  | .handle =>
    match s.handler with
    | .got pid status => some (s.handle pid status)
    | _ => none

/-- What an event can do. -/
inductive Step (s : State) : Event → State → Prop
  | line (cmdline : Text) : s.main = .prompt → s.handler = .inactive →
      Step s (.line cmdline) { s with main := .evaluating cmdline }
  | eof : Step s .eof (s.exit .endOfFile)
  | eval (cmdline : Text) (killed : Bool) : s.main = .evaluating cmdline → s.handler = .inactive →
      Step s (.run killed) (s.eval cmdline killed)
  | register (bg : Bool) (pid : Int32) (killed : Bool) : s.main = .forked bg pid →
      Step s (.run killed) (s.register bg pid)
  | resume (pid : Int32) (killed : Bool) : s.main = .suspended pid true → s.handler = .inactive →
      Step s (.run killed) { s with main := if s.susp then .suspended pid false else .waited pid }
  | restore (pid : Int32) (killed : Bool) : s.main = .waited pid → s.handler = .inactive →
      Step s (.run killed) { s with main := .prompt }
  | forkError : Step s (.fork none) (s.exit .forkError)
  | fork (bg : Bool) (pid : Int32) : s.main = .blocked bg → ¬ pid < 1 → pid ∉ s.children →
      Step s (.fork (some pid))
        { s with main := .forked bg pid, children := s.children.insert pid .running }
  | child (pid : Int32) (p : Proc) : pid ∈ s.children →
      Step s (.child pid p) { s with children := s.children.insert pid p, pending := true }
  | sigchld : s.handler = .inactive → s.main.unblocked = true →
      Step s .sigchld { s with handler := .waiting, pending := false }
  | interrupt (killed : Bool) : Step s (.interrupt killed) (s.interrupt killed)
  | sigquit : Step s .sigquit (s.exit .sigquit)
  | none : s.handler = .waiting → Step s (.waitpid none) { s.wake with handler := .inactive }
  | stopped (pid : Int32) : s.handler = .waiting → pid ∈ s.children →
      Step s (.waitpid (some pid))
        { s with handler := .got pid .stopped, children := s.children.insert pid (.stopped true) }
  | ended (pid : Int32) : s.handler = .waiting → pid ∈ s.children →
      Step s (.waitpid (some pid)) { s with handler := .got pid .ended, children := s.children.erase pid }
  | handle (pid : Int32) (status : Status) : s.handler = .got pid status →
      Step s .handle (s.handle pid status)

theorem mem_children {children : AList fun _ : Int32 => Proc} {pid : Int32} {p : Proc}
    (h : children.lookup pid = some p) : pid ∈ children :=
  AList.lookup_isSome.mp (by rw [h]; rfl)

theorem State.step_cases {s s' : State} {e : Event} (h : s.step e = some s') :
    s.exited = none ∧ Step s e s' := by
  rw [State.step.eq_def] at h
  by_cases hx : s.exited.isSome = true
  · rw [if_pos hx] at h
    cases h
  rw [if_neg hx] at h
  refine ⟨Option.not_isSome_iff_eq_none.mp hx, ?_⟩
  cases e with
  | line cmdline =>
    obtain ⟨hg, he⟩ := Option.ite_none_right_eq_some.mp h
    exact Option.some.inj he ▸ .line cmdline hg.1 hg.2.1
  | eof =>
    obtain ⟨-, he⟩ := Option.ite_none_right_eq_some.mp h
    exact Option.some.inj he ▸ .eof
  | run killed =>
    obtain ⟨hi, hr⟩ := Option.ite_none_right_eq_some.mp h
    unfold State.run at hr
    split at hr
    · exact Option.some.inj hr ▸ .eval _ killed ‹_› hi
    · exact Option.some.inj hr ▸ .register _ _ killed ‹_›
    · exact Option.some.inj hr ▸ .resume _ killed ‹_› hi
    · exact Option.some.inj hr ▸ .restore _ killed ‹_› hi
    · cases hr
  | fork pid =>
    dsimp only at h
    unfold State.fork at h
    split at h
    · exact Option.some.inj h ▸ .forkError
    · obtain ⟨hpid, he⟩ := Option.ite_none_right_eq_some.mp h
      exact Option.some.inj he ▸ .fork _ _ ‹_› hpid.1 hpid.2
    · cases h
  | child pid p =>
    dsimp only at h
    split at h
    · cases h
    · obtain ⟨-, he⟩ := Option.ite_none_right_eq_some.mp h
      exact Option.some.inj he ▸ .child pid p (mem_children ‹_›)
  | sigchld =>
    obtain ⟨hg, he⟩ := Option.ite_none_right_eq_some.mp h
    exact Option.some.inj he ▸ .sigchld hg.2.1 hg.2.2
  | interrupt killed =>
    obtain ⟨-, he⟩ := Option.ite_none_right_eq_some.mp h
    exact Option.some.inj he ▸ .interrupt killed
  | sigquit =>
    obtain ⟨-, he⟩ := Option.ite_none_right_eq_some.mp h
    exact Option.some.inj he ▸ .sigquit
  | waitpid pid =>
    obtain ⟨hw, hr⟩ := Option.ite_none_right_eq_some.mp h
    unfold State.waitpid at hr
    split at hr
    · obtain ⟨-, he⟩ := Option.ite_none_right_eq_some.mp hr
      exact Option.some.inj he ▸ .none hw
    · split at hr
      · exact Option.some.inj hr ▸ .stopped _ hw (mem_children ‹_›)
      · exact Option.some.inj hr ▸ .ended _ hw (mem_children ‹_›)
      · cases hr
  | handle =>
    dsimp only at h
    split at h
    · exact Option.some.inj h ▸ .handle _ _ ‹_›
    · cases h

def shell : System State Event Unit where
  init s := s = .start
  legal _ _ := True
  exec s e := (s.step e).map fun s' => ((), s')

theorem shell_exec {s s' : State} {e : Event} {r : Unit} (h : shell.exec s e = some (r, s')) :
    s.exited = none ∧ Step s e s' := by
  obtain ⟨t, ht, he⟩ := Option.map_eq_some_iff.mp h
  exact State.step_cases (ht.trans (congrArg some (Prod.mk.inj he).2))

end Csapp.Tsh
