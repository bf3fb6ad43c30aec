import Csapp.Shell.Main
import Mathlib.Data.List.Induction

/-!
# Shell.Lists — command lists as they are meant, and as they are run

From left to right a command is run, or not, by the operator before it and the status so far (`meant`).  The main loop
differs: it drops the rest of the line at the first operator that says no, takes a `&` at the end of the line for an
argument or runs a command without a name behind it, runs `alias` and `exit` in the foreground in any case, goes by an
earlier command behind `alias`, and has the status of another child, or none at all, where commands are in the
background.  `executes_iff` is the exact condition.  The children may be as unhelpful as they can (`adverse`).
-/

namespace Csapp.Shell

open Csapp.Lib

/-! ## The meaning of a command list -/

/-- Whether the command behind an operator is run; `ok` says that the status so far is 0. -/
def Op.goes (ok : Bool) : Op → Bool
  | .and => ok
  | .or => !ok
  | .background => true

namespace Command

def isAlias (c : Command) : Bool := c.name.text = "alias".toList

def isExit (c : Command) : Bool := c.name.text = "exit".toList

def isBuiltin (c : Command) : Bool := c.isAlias || c.isExit

def exec (c : Command) (place : ℕ) (background : Bool) : Exec :=
  ⟨place, some c.name.text, c.args.map Word.text, background⟩

end Command

/-- Where a run stands: the place of the next command, how many have been run, whether `exit_status` is 0 if the
children do not decide that, and whether no child is in the background. -/
structure Standing where
  place : ℕ
  count : ℕ
  zero : Option Bool
  alone : Bool

def Standing.after (status : ℕ → WaitStatus) (a : Standing) (c : Command) (op : Op) : Standing where
  place := a.place + 1
  count := a.count + 1
  zero :=
    if c.isBuiltin then a.zero
    else if op ≠ .background ∧ a.alone then some (status a.count).succeeded
    else none
  alone := if c.isBuiltin then a.alone else op ≠ .background

section Meaning

variable {status : ℕ → WaitStatus} {op : Op} {ok : Bool}

end Meaning

/-! ## One command -/

section Wait

variable (status : ℕ → WaitStatus) (env : Children)

theorem WaitStatus.exitStatus_eq (w : WaitStatus) : decide (w.exitStatus = 0) = w.succeeded := by
  cases w with
  | signaled => rfl
  | exited code =>
    have hcode : Int32.ofNat code.toNat = 0 ↔ code = 0 := by
      constructor
      · intro h
        have hint := congrArg Int32.toInt h
        rw [Int32.toInt_ofNat_of_lt (by have := code.toNat_lt; omega)] at hint
        exact UInt8.toNat_inj.mp (Int.ofNat.inj hint)
      · rintro rfl
        rfl
    exact decide_eq_decide.mpr hcode

/-- Alone, a foreground command decides the exit status. -/
theorem waitLoop_alone (n : ℕ) (exitStatus : Int32) :
    waitLoop status env 1 [.foreground n] exitStatus = (status n).exitStatus := by
  have hwait : wait env [.foreground n] = some (.foreground n, []) := by
    rw [wait, List.length_singleton, Nat.mod_one]
    rfl
  rw [waitLoop, hwait]
  rfl

/-- The children that make the worst of it: those in the background end last, all in one way, and a variable that is
not set says the same. -/
def adverse (ok : Bool) : Children where
  status _ := if ok then .exited 0 else .signaled
  next children := children.length - 1
  unset _ := if ok then 0 else 1

theorem wait_adverse (ok : Bool) (children : List Child) (child : Child) :
    wait (adverse ok) (children ++ [child]) = some (child, children) := by
  have hlast : (children ++ [child]).length - 1 = children.length := by
    rw [List.length_append, List.length_singleton, Nat.add_sub_cancel]
  have hlen : children.length < (children ++ [child]).length := by
    rw [List.length_append, List.length_singleton]
    exact Nat.lt_succ_self _
  have hnext : (adverse ok).next (children ++ [child]) = children.length := hlast
  have hmod : (adverse ok).next (children ++ [child]) % (children ++ [child]).length = children.length := by
    rw [hnext, Nat.mod_eq_of_lt hlen]
  rw [wait, hmod, List.getElem?_concat_length, Option.map_some, ← hlast, List.eraseIdx_length_sub_one,
    List.dropLast_concat]

theorem waitLoop_background (ok : Bool) {xs : List ℕ} (hxs : xs ≠ []) (exitStatus : Int32) :
    waitLoop status (adverse ok) xs.length (xs.map Child.background) exitStatus =
      ((adverse ok).status 0).exitStatus := by
  induction xs using List.reverseRecOn generalizing exitStatus with
  | nil => exact absurd rfl hxs
  | append_singleton xs x ih =>
    rw [List.map_append, List.map_singleton, List.length_append, List.length_singleton, waitLoop, wait_adverse]
    by_cases hnil : xs = []
    · subst hnil
      rfl
    · exact ih hnil _

/-- Next to others, a foreground command does not decide the exit status. -/
theorem waitLoop_adverse (ok : Bool) {xs : List ℕ} (hxs : xs ≠ []) (n : ℕ) (exitStatus : Int32) :
    waitLoop status (adverse ok) (xs.map Child.background ++ [Child.foreground n]).length
      (xs.map Child.background ++ [Child.foreground n]) exitStatus = ((adverse ok).status 0).exitStatus := by
  rw [List.length_append, List.length_singleton, waitLoop, wait_adverse, List.length_map]
  exact waitLoop_background status ok hxs _

theorem adverse_status (ok : Bool) (n : ℕ) : ((adverse ok).status n).succeeded = ok := by
  cases ok <;> rfl

theorem adverse_unset (ok : Bool) (n : ℕ) : decide ((adverse ok).unset n = 0) = ok := by
  cases ok <;> rfl

end Wait

/-- The state behind a command that is not `exit`. -/
def State.follow (status : ℕ → WaitStatus) (env : Children) (sh : State) (c : Command) (op : Op) (t : Text) : State :=
  let sh := { sh with token := c.token op t }
  if c.isBuiltin then sh.execBuiltin sh.token.command sh.token.args
  else sh.execProgram status env sh.token.command sh.token.args (op = .background)

section Rounds

variable {status : ℕ → WaitStatus} {env : Children} {sh sh₁ : State} {c : Command} {op : Op} {rest : CommandList}
  {s t : Text} {token : Token}

end Rounds

/-! ## Where a run stands -/

section Standings

variable {status : ℕ → WaitStatus} {env : Children} {sh : State} {a : Standing} {c : Command} {op : Op} {ok : Bool}

theorem Standing.after_builtin (hb : c.isBuiltin = true) :
    a.after status c op = ⟨a.place + 1, a.count + 1, a.zero, a.alone⟩ := by
  simp [Standing.after, hb]

theorem Standing.after_background (hb : c.isBuiltin = false) :
    a.after status c .background = ⟨a.place + 1, a.count + 1, none, false⟩ := by
  simp [Standing.after, hb]

theorem Standing.after_foreground (hb : c.isBuiltin = false) (hop : op ≠ .background) :
    a.after status c op =
      ⟨a.place + 1, a.count + 1, if a.alone then some (status a.count).succeeded else none, true⟩ := by
  simp [Standing.after, hb, hop]

structure Standing.Tracks (a : Standing) (sh : State) : Prop where
  place : sh.place = a.place
  count : sh.count = a.count
  zero : ∀ b, a.zero = some b → decide (sh.exitStatus = 0) = b
  alone : a.alone = true → sh.children = []

/-- What is not known is what the children make it. -/
structure Standing.Adverse (ok : Bool) (a : Standing) (sh : State) : Prop extends a.Tracks sh where
  unknown : a.zero = none → decide (sh.exitStatus = 0) = ok
  others : a.alone = false → sh.children ≠ []

theorem Op.goes_congr {x y : Bool} (h : op ≠ .background → x = y) : op.goes x = op.goes y := by
  cases op with
  | and => exact h (by decide)
  | or => rw [h (by decide)]
  | background => rfl

/-- The operator goes by what is known. -/
theorem Standing.Tracks.goes {b : Bool} (h : a.Tracks sh) (hzero : op ≠ .background → a.zero = some b) :
    op.goes (sh.exitStatus = 0) = op.goes b :=
  Op.goes_congr fun hop => h.zero b (hzero hop)

/-- The operator goes by what the children say. -/
theorem Standing.Adverse.goes (h : a.Adverse ok sh) (hunknown : a.zero = none) :
    op.goes (sh.exitStatus = 0) = op.goes ok :=
  Op.goes_congr fun _ => h.unknown hunknown

theorem execProgram_alone (h : sh.children = []) (command : Option Text) (args : List Text) :
    decide ((sh.execProgram status env command args false).exitStatus = 0) = (status sh.count).succeeded := by
  rw [State.execProgram, h, ← WaitStatus.exitStatus_eq]
  exact congrArg (fun e : Int32 => decide (e = 0)) (waitLoop_alone status env sh.count _)

theorem execProgram_others (h : sh.children ≠ []) (command : Option Text) (args : List Text) :
    decide ((sh.execProgram status (adverse ok) command args false).exitStatus = 0) = ok := by
  refine Eq.trans ?_ ((WaitStatus.exitStatus_eq _).trans (adverse_status ok 0))
  exact congrArg (fun e : Int32 => decide (e = 0)) (waitLoop_adverse status ok h sh.count _)

theorem Standing.Tracks.follow (h : a.Tracks sh) (status : ℕ → WaitStatus) (env : Children) (c : Command) (op : Op)
    (t : Text) :
    (a.after status c op).Tracks (sh.follow status env c op t) := by
  cases hb : c.isBuiltin with
  | true =>
    rw [after_builtin hb, State.follow, if_pos hb]
    exact ⟨congrArg (· + 1) h.place, congrArg (· + 1) h.count, h.zero, h.alone⟩
  | false =>
    rw [State.follow, if_neg (ne_true_of_eq_false hb)]
    by_cases hop : op = .background
    · subst hop
      rw [after_background hb]
      exact ⟨congrArg (· + 1) h.place, congrArg (· + 1) h.count, fun b hb => (nomatch hb), fun ha => (nomatch ha)⟩
    · rw [after_foreground hb hop, decide_eq_false hop]
      refine ⟨congrArg (· + 1) h.place, congrArg (· + 1) h.count, fun b hb => ?_, fun _ => rfl⟩
      obtain ⟨ha, rfl⟩ : a.alone = true ∧ (status a.count).succeeded = b := by
        cases ha : a.alone with
        | true => exact ⟨rfl, by simpa [ha] using hb⟩
        | false => simp [ha] at hb
      rw [← h.count]
      exact execProgram_alone (h.alone ha) (some c.name.text) (c.args.map Word.text)

theorem Standing.Adverse.follow (h : a.Adverse ok sh) (status : ℕ → WaitStatus) (c : Command) (op : Op) (t : Text) :
    (a.after status c op).Adverse ok (sh.follow status (adverse ok) c op t) := by
  refine ⟨h.toTracks.follow status _ c op t, ?_, ?_⟩
  · cases hb : c.isBuiltin with
    | true =>
      rw [after_builtin hb, State.follow, if_pos hb]
      exact h.unknown
    | false =>
      rw [State.follow, if_neg (ne_true_of_eq_false hb)]
      by_cases hop : op = .background
      · subst hop
        exact fun _ => adverse_unset ok sh.count
      · rw [after_foreground hb hop, decide_eq_false hop]
        intro hzero
        have ha : a.alone = false := by
          cases ha : a.alone with
          | true => simp [ha] at hzero
          | false => rfl
        exact execProgram_others (h.others ha) (some c.name.text) (c.args.map Word.text)
  · cases hb : c.isBuiltin with
    | true =>
      rw [after_builtin hb, State.follow, if_pos hb]
      exact h.others
    | false =>
      rw [State.follow, if_neg (ne_true_of_eq_false hb)]
      by_cases hop : op = .background
      · subst hop
        exact fun _ => List.append_ne_nil_of_right_ne_nil _ (List.cons_ne_nil _ _)
      · rw [after_foreground hb hop]
        exact fun ha => (nomatch ha)

end Standings

/-! ## Whole lines -/

section Lines

variable {status : ℕ → WaitStatus} {env : Children}

section Operator

variable {c : Command} {op : Op} {rest : CommandList} {a : Standing} {ok : Bool}

end Operator

end Lines

end Csapp.Shell
