import Csapp.Lib.Machine
import Csapp.Shell.Args

/-!
# Shell.Main — the main loop

A round goes on behind the last operator, or prompts and reads a line; then it runs one command.  The children run
on their own: what they end with and the order in which they do is not up to the shell (`Children`).  A foreground
command waits for all of them, and its exit status is that of the child reaped last.  A child that is forked runs its
program; what the shell prints is left out.  There is no result where `strcmp` gets a `NULL`.

The state also counts: `place` is the place of the next command on its line, `count` the number of commands so far, by
which the children are numbered.
-/

namespace Csapp.Shell

open Csapp.Lib

/-! ## Children -/

/-- What `wait` reports. -/
inductive WaitStatus
  | exited (code : UInt8)
  | signaled
  deriving DecidableEq

def WaitStatus.exitStatus : WaitStatus → Int32
  | .exited code => Int32.ofNat code.toNat
  | .signaled => 2

def WaitStatus.succeeded : WaitStatus → Bool
  | .exited code => code = 0
  | .signaled => false

/-- A child, by the number of its command. -/
inductive Child
  | background (n : ℕ)
  | foreground (n : ℕ)
  deriving DecidableEq

/-- What the shell does not decide, the statuses of the foreground commands apart. -/
structure Children where
  /-- what the background commands end with -/
  status : ℕ → WaitStatus
  /-- which child is reaped next -/
  next : List Child → ℕ
  /-- the value of `exit_status` where `ExecProgram` has not set it -/
  unset : ℕ → Int32

section Wait

variable (status : ℕ → WaitStatus) (env : Children)

def childStatus : Child → WaitStatus
  | .background n => env.status n
  | .foreground n => status n

/-- `wait`: the child that is reaped, and the others; none is left where it returns -1. -/
def wait (children : List Child) : Option (Child × List Child) :=
  let i := env.next children % children.length
  children[i]?.map fun child => (child, children.eraseIdx i)

/-- The loop of `ExecProgram`, at most `n` rounds. -/
def waitLoop : ℕ → List Child → Int32 → Int32
  | 0, _, exitStatus => exitStatus
  | n + 1, children, exitStatus =>
    match wait env children with
    | none => exitStatus
    | some (child, children) => waitLoop n children (childStatus status env child).exitStatus

end Wait

/-! ## The shell -/

/-- A command that is run: its place on the line, and whether it is in the background. -/
structure Exec where
  place : ℕ
  command : Option Text
  args : List Text
  background : Bool
  deriving DecidableEq

structure State where
  stdin : Text
  token : Token
  exitStatus : Int32
  /-- the numbers of the children that have not been reaped; all are in the background -/
  children : List ℕ
  /-- the place of the next command on the line -/
  place : ℕ
  /-- how many commands have been run -/
  count : ℕ
  /-- the commands that have been run -/
  executed : List Exec

/-- The state in which `main` enters the loop. -/
def State.start (stdin : Text) : State := ⟨stdin, ⟨none, [], none, none⟩, 1, [], 0, 0, []⟩

def continueExec (operator : Text) (exitStatus : Int32) : Bool :=
  if operator = "&&".toList then exitStatus = 0
  else if operator = "||".toList then exitStatus ≠ 0
  else operator = "&".toList

/-- Where the shell goes on without a prompt. -/
def State.continuation (sh : State) : Option Text :=
  match sh.token.sNext, sh.token.operator with
  | some s, some operator => if continueExec operator sh.exitStatus then some s else none
  | _, _ => none

/-- The string that is parsed next: what follows, or a new line. -/
def State.next (sh : State) : Option Text × State :=
  match sh.continuation with
  | some s => (some s, sh)
  | none =>
    match fgets MAX_INPUT sh.stdin with
    | none => (none, sh)
    | some (line, stdin) => (some line, { sh with stdin, place := 0 })

/-- The command is noted. -/
def State.note (sh : State) (command : Option Text) (args : List Text) (background : Bool) : State :=
  { sh with
    place := sh.place + 1
    count := sh.count + 1
    executed := sh.executed ++ [⟨sh.place, command, args, background⟩] }

section Rounds

variable (status : ℕ → WaitStatus) (env : Children)

def State.execProgram (sh : State) (command : Option Text) (args : List Text) (background : Bool) : State :=
  let children := sh.children.map Child.background ++ [.foreground sh.count]
  { sh.note command args background with
    exitStatus :=
      if background then env.unset sh.count
      else waitLoop status env children.length children (env.unset sh.count)
    children := if background then sh.children ++ [sh.count] else [] }

/-- A builtin runs in the shell itself. -/
def State.execBuiltin (sh : State) (command : Option Text) (args : List Text) : State :=
  sh.note command args false

/-- What a round does with the token: `alias` and `exit` are the builtins. -/
def State.exec (sh : State) : Option (Outcome State) :=
  if sh.token.command = some "alias".toList then
    some (.running (sh.execBuiltin sh.token.command sh.token.args))
  else if sh.token.command = some "exit".toList then
    some (.halted (sh.execBuiltin sh.token.command sh.token.args))
  else sh.token.operator.map fun operator =>
    .running (sh.execProgram status env sh.token.command sh.token.args (operator = "&".toList))

/-- A round of the main loop. -/
def round (sh : State) : Option (Outcome State) :=
  let (s, sh) := sh.next
  (parseArgs s).bind fun token => { sh with token }.exec status env

/-- The run halts where the shell ends and before it prompts. -/
def untilPrompt : Outcome State → Outcome State
  | .running sh => if sh.continuation = none then .halted sh else .running sh
  | .halted sh => .halted sh

/-- A round, up to the next prompt. -/
def lineRound (sh : State) : Option (Outcome State) := (round status env sh).map untilPrompt

end Rounds

/-! ## What a round runs -/

section Executed

variable {status : ℕ → WaitStatus} {env : Children} {sh sh₁ sh' : State} {s : Text} {token : Token} {o : Outcome State}

/-- The command that a token stands for. -/
def Token.exec (token : Token) (place : ℕ) : Exec where
  place := place
  command := token.command
  args := token.args
  background := token.command ≠ some "alias".toList ∧ token.command ≠ some "exit".toList ∧
    token.operator = some "&".toList

theorem State.next_executed (sh : State) : sh.next.2.executed = sh.executed := by
  rw [State.next]
  split
  · rfl
  · split
    · rfl
    · rfl

theorem State.exec_executed (h : sh.exec status env = some o) :
    o.state.executed = sh.executed ++ [sh.token.exec sh.place] := by
  rw [State.exec] at h
  split_ifs at h with ha he
  · cases h
    simp only [Outcome.state, State.execBuiltin, State.note, Token.exec, ha, ne_eq, not_true_eq_false, false_and,
      decide_false]
  · cases h
    simp only [Outcome.state, State.execBuiltin, State.note, Token.exec, he, ne_eq, not_true_eq_false, false_and,
      and_false, decide_false]
  · obtain ⟨operator, hop, rfl⟩ := Option.map_eq_some_iff.mp h
    simp only [Outcome.state, State.execProgram, State.note, Token.exec, ha, he, hop, ne_eq, not_false_eq_true,
      true_and, Option.some.injEq]

theorem untilPrompt_executed (o : Outcome State) : (untilPrompt o).state.executed = o.state.executed := by
  cases o with
  | running sh =>
    rw [untilPrompt]
    split
    · rfl
    · rfl
  | halted sh => rfl

/-- A round runs the command that `ParseArgs` finds. -/
theorem lineRound_executed (h : lineRound status env sh = some o) :
    ∃ token, parseArgs sh.next.1 = some token ∧
      o.state.executed = sh.executed ++ [token.exec sh.next.2.place] := by
  obtain ⟨o, hround, rfl⟩ := Option.map_eq_some_iff.mp h
  obtain ⟨token, hparse, hexec⟩ := Option.bind_eq_some_iff.mp hround
  refine ⟨token, hparse, (untilPrompt_executed o).trans ((State.exec_executed hexec).trans ?_)⟩
  exact congrArg (· ++ [token.exec sh.next.2.place]) sh.next_executed

/-- Up to the prompt that command is run first. -/
theorem Halts.executed (h : Halts (lineRound status env) sh sh') :
    ∃ token out, parseArgs sh.next.1 = some token ∧
      sh'.executed = sh.executed ++ token.exec sh.next.2.place :: out := by
  refine Halts.induct (P := fun sh => ∃ token out, parseArgs sh.next.1 = some token ∧
    sh'.executed = sh.executed ++ token.exec sh.next.2.place :: out) (fun sh hr => ?_) (fun sh t hr ih => ?_) h
  · obtain ⟨token, hparse, he⟩ := lineRound_executed hr
    exact ⟨token, [], hparse, he⟩
  · obtain ⟨token, hparse, he⟩ := lineRound_executed hr
    obtain ⟨token', out, -, he'⟩ := ih
    refine ⟨token, token'.exec t.next.2.place :: out, hparse, ?_⟩
    rw [he', show t.executed = _ from he, List.append_assoc, List.singleton_append]

end Executed

end Csapp.Shell
