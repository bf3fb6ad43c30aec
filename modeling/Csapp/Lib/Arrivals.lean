import Mathlib.Data.List.Basic

/-!
# Lib.Arrivals — input that arrives in pieces

What `read` gives depends on how the input arrives: in which pieces, with which interrupted calls between them, and
where a call fails or reports the end of the file.  `items` forgets the pieces and the interruptions.  `scan` takes
items one by one, up to a number of them; a reader that takes any non-empty piece at a time (`Took`) gets what `scan`
gets (`scan_took`).
-/

namespace Csapp.Lib.Arrivals

variable {α : Type*}

/-- One thing that may happen on a descriptor that is read. -/
inductive Arrival (α : Type*)
  | intr
  | fail
  | eof
  | chunk (a : α) (s : List α)

/-- What a call of `read` returns; `got []` is the end of the file. -/
inductive ReadResult (α : Type*)
  | intr
  | fail
  | got (s : List α)

/-- What is left of a piece stays in front. -/
def later : List α → List (Arrival α) → List (Arrival α)
  | [], as => as
  | a :: s, as => .chunk a s :: as

/-- `read` of at most `n` items. -/
def read : List (Arrival α) → ℕ → ReadResult α × List (Arrival α)
  | [], _ => (.got [], [])
  | .intr :: as, _ => (.intr, as)
  | .fail :: as, _ => (.fail, as)
  | .eof :: as, _ => (.got [], as)
  | .chunk a s :: as, n => (.got ((a :: s).take n), later ((a :: s).drop n) as)

/-- An item, or what stands between items. -/
inductive Item (α : Type*)
  | val (a : α)
  | eof
  | fail

def items : List (Arrival α) → List (Item α)
  | [] => []
  | .intr :: as => items as
  | .fail :: as => .fail :: items as
  | .eof :: as => .eof :: items as
  | .chunk a s :: as => (a :: s).map .val ++ items as

theorem items_later (s : List α) (as : List (Arrival α)) : items (later s as) = s.map .val ++ items as := by
  cases s with
  | nil => rfl
  | cons => rfl

theorem length_later_le (s : List α) (as : List (Arrival α)) : (later s as).length ≤ as.length + 1 := by
  cases s with
  | nil => exact Nat.le_succ _
  | cons => exact Nat.le_refl _

/-! ## Taking items one by one -/

/-- Why no more items are taken: there are enough, or there is something else. -/
inductive Ending
  | full
  | eof
  | fail
  deriving DecidableEq

/-- At most `n` items, up to the first one with `stop`; behind the last arrival there is the end of the file. -/
def scan (stop : α → Bool) : ℕ → List (Item α) → List α × Ending × List (Item α)
  | 0, is => ([], .full, is)
  | _ + 1, [] => ([], .eof, [])
  | _ + 1, .eof :: is => ([], .eof, is)
  | _ + 1, .fail :: is => ([], .fail, is)
  | n + 1, .val a :: is =>
    if stop a then ([a], .full, is) else (a :: (scan stop n is).1, (scan stop n is).2)

theorem scan_val (stop : α → Bool) (n : ℕ) (a : α) (is : List (Item α)) :
    scan stop (n + 1) (.val a :: is) =
      if stop a then ([a], .full, is) else (a :: (scan stop n is).1, (scan stop n is).2) := rfl

/-- `scan` without a condition. -/
def scanAll (n : ℕ) (is : List (Item α)) : List α × Ending × List (Item α) := scan (fun _ => false) n is

theorem length_scan_le (stop : α → Bool) (n : ℕ) (is : List (Item α)) : (scan stop n is).1.length ≤ n := by
  induction n generalizing is with
  | zero => exact Nat.le_refl 0
  | succ n ih =>
    match is with
    | [] => exact Nat.zero_le _
    | .eof :: _ => exact Nat.zero_le _
    | .fail :: _ => exact Nat.zero_le _
    | .val a :: is =>
      rw [scan]
      by_cases ha : stop a = true
      · rw [if_pos ha]
        exact Nat.le_add_left 1 n
      · rw [if_neg ha]
        exact Nat.succ_le_succ (ih is)

theorem scanAll_append (s : List α) (n : ℕ) (is : List (Item α)) :
    scanAll (s.length + n) (s.map .val ++ is) = (s ++ (scanAll n is).1, (scanAll n is).2) := by
  induction s with
  | nil =>
    rw [List.length_nil, Nat.zero_add]
    rfl
  | cons a s ih =>
    unfold scanAll at ih ⊢
    rw [List.length_cons, Nat.add_right_comm, List.map_cons, List.cons_append, scan,
      if_neg Bool.false_ne_true, ih]
    rfl

/-- The items are what has been taken, what ended it, and the rest. -/
def Split (is : List (Item α)) : List α × Ending × List (Item α) → Prop
  | (s, .full, rest) => is = s.map .val ++ rest
  | (s, .eof, rest) => is = s.map .val ++ .eof :: rest ∨ is = s.map .val ∧ rest = []
  | (s, .fail, rest) => is = s.map .val ++ .fail :: rest

theorem Split.cons {is : List (Item α)} {x : List α × Ending × List (Item α)} (h : Split is x) (a : α) :
    Split (.val a :: is) (a :: x.1, x.2) := by
  obtain ⟨s, e, rest⟩ := x
  cases e with
  | full => exact congrArg (Item.val a :: ·) h
  | eof =>
    rcases h with h | ⟨h, hrest⟩
    · exact Or.inl (congrArg (Item.val a :: ·) h)
    · exact Or.inr ⟨congrArg (Item.val a :: ·) h, hrest⟩
  | fail => exact congrArg (Item.val a :: ·) h

theorem scan_split (stop : α → Bool) (n : ℕ) (is : List (Item α)) : Split is (scan stop n is) := by
  induction n generalizing is with
  | zero => exact rfl
  | succ n ih =>
    match is with
    | [] => exact Or.inr ⟨rfl, rfl⟩
    | .eof :: _ => exact Or.inl rfl
    | .fail :: _ => exact rfl
    | .val a :: is =>
      rw [scan_val]
      by_cases ha : stop a = true
      · rw [if_pos ha]
        exact rfl
      · rw [if_neg ha]
        exact (ih is).cons a

theorem scan_ne_nil (stop : α → Bool) {n : ℕ} (is : List (Item α)) (hn : 0 < n)
    (h : (scan stop n is).2.1 = .full) : (scan stop n is).1 ≠ [] := by
  obtain ⟨n, rfl⟩ := Nat.exists_eq_succ_of_ne_zero (Nat.ne_of_gt hn)
  match is with
  | [] => cases h
  | .eof :: _ => cases h
  | .fail :: _ => cases h
  | .val a :: is =>
    rw [scan_val]
    split
    · exact List.cons_ne_nil a []
    · exact List.cons_ne_nil a _

/-- The items in front of the first end of the file or failure, and which of the two it is. -/
def front : List (Item α) → List α × Ending
  | [] => ([], .eof)
  | .eof :: _ => ([], .eof)
  | .fail :: _ => ([], .fail)
  | .val a :: is => (a :: (front is).1, (front is).2)

theorem front_append (s : List α) (is : List (Item α)) :
    front (s.map .val ++ is) = (s ++ (front is).1, (front is).2) := by
  induction s with
  | nil => rfl
  | cons a s ih => rw [List.map_cons, List.cons_append, front, ih, List.cons_append]

/-- What is taken in front of an end or a failure is all of the front. -/
theorem Split.front_eq {is : List (Item α)} {x : List α × Ending × List (Item α)} (h : Split is x)
    (hx : x.2.1 ≠ .full) : front is = (x.1, x.2.1) := by
  obtain ⟨s, e, rest⟩ := x
  cases e with
  | full => exact absurd rfl hx
  | eof =>
    rcases h with rfl | ⟨rfl, -⟩
    · rw [front_append]
      exact Prod.ext (List.append_nil s) rfl
    · rw [← List.append_nil (s.map Item.val), front_append]
      exact Prod.ext (List.append_nil s) rfl
  | fail =>
    have his : is = s.map .val ++ .fail :: rest := h
    rw [his, front_append]
    exact Prod.ext (List.append_nil s) rfl

theorem length_scan_lt {stop : α → Bool} {n : ℕ} {is : List (Item α)} (h : (scan stop n is).2.1 ≠ .full) :
    (scan stop n is).1.length < n := by
  induction n generalizing is with
  | zero => exact absurd rfl h
  | succ n ih =>
    match is with
    | [] => exact Nat.succ_pos n
    | .eof :: _ => exact Nat.succ_pos n
    | .fail :: _ => exact Nat.succ_pos n
    | .val a :: is =>
      rw [scan_val] at h ⊢
      split at h
      · exact absurd rfl h
      · rw [if_neg ‹_›]
        exact Nat.succ_lt_succ (ih h)

theorem length_scanAll {n : ℕ} {is : List (Item α)} (h : (scanAll n is).2.1 = .full) :
    (scanAll n is).1.length = n := by
  unfold scanAll at h ⊢
  induction n generalizing is with
  | zero => rfl
  | succ n ih =>
    match is with
    | [] => cases h
    | .eof :: _ => cases h
    | .fail :: _ => cases h
    | .val a :: is =>
      rw [scan_val, if_neg Bool.false_ne_true] at h ⊢
      exact congrArg (· + 1) (ih h)

/-! ## Taking a piece -/

/-- One call of a reader that tries again after an interruption: `none` is a failure, `some []` the end of the
file. -/
inductive Took (n : ℕ) : List (Item α) → Option (List α) → List (Item α) → Prop
  | got {s : List α} {is : List (Item α)} : s ≠ [] → s.length ≤ n → Took n (s.map .val ++ is) (some s) is
  | last : Took n [] (some []) []
  | eof {is : List (Item α)} : Took n (.eof :: is) (some []) is
  | fail {is : List (Item α)} : Took n (.fail :: is) none is

variable {n : ℕ} {s : List α} {is is' : List (Item α)}

theorem Took.scan_fail (h : Took n is none is') (hn : 0 < n) : scanAll n is = ([], .fail, is') := by
  obtain ⟨m, rfl⟩ := Nat.exists_eq_succ_of_ne_zero (Nat.ne_of_gt hn)
  cases h with
  | fail => rfl

theorem Took.scan_eof (h : Took n is (some []) is') (hn : 0 < n) : scanAll n is = ([], .eof, is') := by
  obtain ⟨m, rfl⟩ := Nat.exists_eq_succ_of_ne_zero (Nat.ne_of_gt hn)
  cases h with
  | got hne _ => exact absurd rfl hne
  | last => rfl
  | eof => rfl

theorem Took.fail_of (h : Took n is none is') (m : ℕ) : Took m is none is' := by
  cases h with
  | fail => exact .fail

theorem Took.eof_of (h : Took n is (some []) is') (m : ℕ) : Took m is (some []) is' := by
  cases h with
  | got hne _ => exact absurd rfl hne
  | last => exact .last
  | eof => exact .eof

theorem Took.scan_got (h : Took n is (some s) is') (hs : s ≠ []) :
    s.length ≤ n ∧ is = s.map .val ++ is' ∧
      scanAll n is = (s ++ (scanAll (n - s.length) is').1, (scanAll (n - s.length) is').2) := by
  cases h with
  | got _ hle =>
    refine ⟨hle, rfl, ?_⟩
    rw [← scanAll_append, Nat.add_sub_cancel' hle]
  | last => exact absurd rfl hs
  | eof => exact absurd rfl hs

/-- `read` takes a piece, unless it is interrupted. -/
theorem read_took (as : List (Arrival α)) (hn : 0 < n) :
    (∃ as', read as n = (.intr, as') ∧ items as = items as' ∧ as'.length < as.length) ∨
      (∃ as', read as n = (.fail, as') ∧ Took n (items as) none (items as')) ∨
        ∃ s as', read as n = (.got s, as') ∧ Took n (items as) (some s) (items as') ∧ as'.length ≤ as.length := by
  match as with
  | [] => exact Or.inr (Or.inr ⟨[], [], rfl, .last, Nat.le_refl _⟩)
  | .intr :: as => exact Or.inl ⟨as, rfl, rfl, Nat.lt_succ_self _⟩
  | .fail :: as => exact Or.inr (Or.inl ⟨as, rfl, .fail⟩)
  | .eof :: as => exact Or.inr (Or.inr ⟨[], as, rfl, .eof, Nat.le_succ _⟩)
  | .chunk a s :: as =>
    refine Or.inr (Or.inr ⟨_, _, rfl, ?_, length_later_le _ as⟩)
    have hitems : items (.chunk a s :: as) =
        ((a :: s).take n).map .val ++ items (later ((a :: s).drop n) as) := by
      rw [items_later, ← List.append_assoc, ← List.map_append, List.take_append_drop, items]
    rw [hitems]
    refine .got (fun hnil => ?_) (List.length_take_le _ _)
    obtain ⟨m, rfl⟩ := Nat.exists_eq_succ_of_ne_zero (Nat.ne_of_gt hn)
    cases hnil

end Csapp.Lib.Arrivals
