import Csapp.Lib.CString
import Csapp.Tsh.Jobs

/-!
# Tsh.Parse — command lines

`parseline` gives the arguments of a command line and whether it asks for a background job.  It has no
result where the code leaves its arrays: an empty string has no last character to replace, and `argv` has
room for `MAXARGS` pointers, the last one `NULL`.
-/

namespace Csapp.Tsh

open Csapp.Lib

def MAXLINE : ℕ := 1024

def MAXARGS : ℕ := 128

/-- The next argument in `buf`, up to its delimiter, and what follows. -/
def nextArg (buf : Text) : Option (Text × Text) :=
  match buf.dropWhile (· = ' ') with
  | '\'' :: buf => strchr '\'' buf
  | buf => strchr ' ' buf

/-- The loop of `parseline`, at most `n` rounds. -/
def buildArgv : ℕ → Text → List Text
  | 0, _ => []
  | n + 1, buf =>
    match nextArg buf with
    | none => []
    | some (arg, buf) => arg :: buildArgv n buf

def parseline (cmdline : Text) : Option (Bool × List Text) :=
  if cmdline = [] then none else
  let argv := buildArgv cmdline.length (cmdline.dropLast ++ [' '])
  if MAXARGS ≤ argv.length then none else
  match argv.getLast? with
  | none => some (true, [])
  | some arg => if arg.head? = some '&' then some (true, argv.dropLast) else some (false, argv)

theorem nextArg_length {buf arg rest : Text} (h : nextArg buf = some (arg, rest)) :
    rest.length < buf.length := by
  have hdrop := (List.dropWhile_suffix (l := buf) (· = ' ')).length_le
  rw [nextArg] at h
  split at h
  · rename_i buf' hq
    have := congrArg List.length (strchr_eq_some h).1
    rw [hq] at hdrop
    simp only [List.length_append, List.length_cons] at this hdrop
    omega
  · have := congrArg List.length (strchr_eq_some h).1
    simp only [List.length_append, List.length_cons] at this
    omega

/-- As many rounds as there are characters are enough. -/
theorem buildArgv_eq {n m : ℕ} {buf : Text} (hn : buf.length ≤ n) (hm : buf.length ≤ m) :
    buildArgv n buf = buildArgv m buf := by
  induction n generalizing m buf with
  | zero =>
    obtain rfl := List.length_eq_zero_iff.mp (Nat.le_zero.mp hn)
    cases m with
    | zero => rfl
    | succ m => rfl
  | succ n ih =>
    cases m with
    | zero =>
      obtain rfl := List.length_eq_zero_iff.mp (Nat.le_zero.mp hm)
      rfl
    | succ m =>
      rw [buildArgv, buildArgv]
      cases h : nextArg buf with
      | none => rfl
      | some p =>
        obtain ⟨arg, rest⟩ := p
        have := nextArg_length h
        have hrest : buildArgv n rest = buildArgv m rest := ih (by omega) (by omega)
        exact congrArg (arg :: ·) hrest

/-- The job that the argument of `bg` or `fg` names, by its job ID or by its pid. -/
def Table.findArg (t : Table) : Text → Option (Fin MAXJOBS)
  | '%' :: arg => (scanInt arg).bind t.getjobjid
  | arg => (scanInt arg).bind t.getjobpid

example : parseline "./myspin 'a b' &\n".toList = some (true, ["./myspin".toList, "a b".toList]) := by
  decide +kernel

end Csapp.Tsh
